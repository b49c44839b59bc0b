/-!
# The command line

The words of a command line as a command with its options. There are two commands: `run` works on
all units below a directory, `function` on the functions of one summary and prints the result.

An option has a long name, and some have a letter too. Its value stands behind an equals sign or is
the next word, with a letter also directly behind it. Letters can be written together. Every option
may be given once, only `--verbose` several times.
-/

namespace InstrGraph.CommandLine

/-- What kind of value an option has. -/
inductive ValueKind where
  | flag
  /-- A flag that may be repeated. -/
  | count
  | text
  /-- A path, which may not be empty. -/
  | path
  | number
  deriving DecidableEq, Repr

/-- The description of an option. -/
structure Spec where
  name : String
  kind : ValueKind
  letter : Option Char := none
  deriving DecidableEq, Repr

/-- Why there is no command: help was asked for, or the command line is wrong. -/
inductive Stop where
  | help
  | usage
  deriving DecidableEq, Repr

/-! ## Options -/

/-- The option has no value; its name alone is enough. -/
def Spec.isFlag (o : Spec) : Bool := o.kind == .flag || o.kind == .count

/-- The number that a value stands for, up to 64 bits. -/
def number? (value : String) : Option Nat :=
  let digits := match value.toList with
    | '+' :: ds => ds
    | ds => ds
  if digits.isEmpty || !digits.all Char.isDigit then none
  else
    let n := digits.foldl (fun n d => 10 * n + (d.toNat - '0'.toNat)) 0
    if n < 0x10000000000000000 then some n else none

/-- The value is one of the kind. -/
def ValueKind.accepts (kind : ValueKind) (value : String) : Bool :=
  match kind with
  | path => !value.isEmpty
  | number => (number? value).isSome
  | _ => true

/-- The options that have been given, each with its value. -/
abbrev Given := List (String × String)

/-- Add an option to those that have been given. -/
def give (given : Given) (o : Spec) (value : String) : Except Stop Given :=
  if !o.kind.accepts value || (o.kind != .count && given.any fun g => g.1 == o.name) then
    .error .usage
  else .ok (given ++ [(o.name, value)])

/-- The word is an option, or ends the options; a lone hyphen is not one. -/
def isOptionWord (word : String) : Bool :=
  match word.toList with
  | '-' :: _ :: _ => true
  | _ => false

/-- What an option word makes of the options: those given now, and the option whose value has to be
the next word. -/
abbrev Progress := Except Stop (Given × Option Spec)

/-- A word of two hyphens, a name and perhaps a value. -/
def readLong (specs : List Spec) (given : Given) (body : List Char) : Progress :=
  let name := String.ofList (body.takeWhile (· != '='))
  let value := match body.dropWhile (· != '=') with
    | '=' :: cs => some (String.ofList cs)
    | _ => none
  match specs.find? (fun o => o.name == name), value with
  | none, none => .error (if name = "help" then .help else .usage)
  | none, some _ => .error .usage
  | some o, none =>
    if o.isFlag then (give given o "").map fun given => (given, none) else .ok (given, some o)
  | some o, some v =>
    if o.isFlag then .error .usage else (give given o v).map fun given => (given, none)

/-- A word of a hyphen and letters. The letter of an option with a value is the last one, and what
follows it is the value. -/
def readLetters (specs : List Spec) (given : Given) : List Char → Progress
  | [] => .ok (given, none)
  | c :: rest =>
    match specs.find? fun o => o.letter == some c with
    | none => .error (if c = 'h' then .help else .usage)
    | some o =>
      if o.isFlag then
        match give given o "" with
        | .error e => .error e
        | .ok given => readLetters specs given rest
      else
        match rest with
        | [] => .ok (given, some o)
        | '=' :: value => (give given o (String.ofList value)).map fun given => (given, none)
        | value => (give given o (String.ofList value)).map fun given => (given, none)

/-- An option word. -/
def readWord (specs : List Spec) (given : Given) (word : String) : Progress :=
  match word.toList with
  | '-' :: '-' :: body => readLong specs given body
  | '-' :: c :: letters => readLetters specs given (c :: letters)
  | _ => .error .usage

/-- The options of a command out of the words behind it. Two hyphens end the options. -/
def readOptions (specs : List Spec) : (waiting : Option Spec) → Given → List String →
    Except Stop Given
  | none, given, [] => .ok given
  | some _, _, [] => .error .usage
  | none, given, word :: words =>
    if word = "--" then if words.isEmpty then .ok given else .error .usage
    else
      match readWord specs given word with
      | .error e => .error e
      | .ok (given, waiting) => readOptions specs waiting given words
  | some o, given, word :: words =>
    if isOptionWord word then .error .usage
    else
      match give given o word with
      | .error e => .error e
      | .ok given => readOptions specs none given words

/-! ## Commands -/

/-- The option that stands before or behind the name of a command. -/
def verbose : Spec := ⟨"verbose", .count, some 'v'⟩

/-- The options of both commands. -/
def commonSpecs : List Spec :=
  [verbose, ⟨"globals", .path, none⟩, ⟨"structs", .path, none⟩, ⟨"config", .path, none⟩,
    ⟨"common-constants", .path, none⟩, ⟨"common-calls", .path, none⟩, ⟨"pretty", .flag, none⟩]

/-- The options of the command for many units. -/
def runSpecs : List Spec :=
  [⟨"summaries", .path, none⟩, ⟨"out", .path, some 'o'⟩, ⟨"jobs", .number, some 'j'⟩] ++ commonSpecs

/-- The options of the command for one summary. -/
def functionSpecs : List Spec :=
  [⟨"summary", .path, none⟩, ⟨"name", .text, none⟩, ⟨"canonical", .flag, none⟩] ++ commonSpecs

/-- What both commands are told. -/
structure Common where
  globals : Option String
  structs : Option String
  config : Option String
  commonConstants : Option String
  commonCalls : Option String
  pretty : Bool
  deriving DecidableEq, Repr

/-- A command. -/
inductive Command where
  | run (summaries out : String) (jobs : Option Nat) (common : Common)
  | function (summary : String) (name : Option String) (canonical : Bool) (common : Common)
  deriving DecidableEq, Repr

/-- The value of an option. -/
def Given.value? (given : Given) (name : String) : Option String := given.lookup name

/-- The values of the common options. -/
def Given.common (given : Given) : Common where
  globals := given.value? "globals"
  structs := given.value? "structs"
  config := given.value? "config"
  commonConstants := given.value? "common-constants"
  commonCalls := given.value? "common-calls"
  pretty := (given.value? "pretty").isSome

/-- The command for many units. -/
def runCommand (given : Given) : Except Stop Command :=
  match given.value? "summaries", given.value? "out" with
  | some summaries, some out =>
    .ok (.run summaries out ((given.value? "jobs").bind number?) given.common)
  | _, _ => .error .usage

/-- The command for one summary. -/
def functionCommand (given : Given) : Except Stop Command :=
  match given.value? "summary" with
  | some summary =>
    .ok (.function summary (given.value? "name") (given.value? "canonical").isSome given.common)
  | none => .error .usage

/-- The command of a command line. -/
def parse : List String → Except Stop Command
  | [] => .error .usage
  | "run" :: words => (readOptions runSpecs none [] words).bind runCommand
  | "function" :: words => (readOptions functionSpecs none [] words).bind functionCommand
  | ["help"] => .error .help
  | ["help", command] =>
    .error (if ["run", "function", "help"].contains command then .help else .usage)
  | word :: words =>
    if word = "--" || !isOptionWord word then .error .usage
    else
      match readWord [verbose] [] word with
      | .error e => .error e
      | .ok _ => parse words

end InstrGraph.CommandLine

import InstrGraph.Batch
import InstrGraph.CommandLine.Log
import InstrGraph.CommandLine.Parse

/-!
# What the commands do

A command works on a tree of files and leaves one behind, and it prints to the two streams. Its
exit code is 0 if everything went well, and 1 otherwise. A run counts as well if it came to its
end, whatever became of its functions; the command for one summary only if none of them failed.
-/

namespace InstrGraph.CommandLine

/-- What a command leaves behind. -/
structure Outcome where
  exitCode : Nat
  out : String := ""
  /-- The lines on the stream for messages. -/
  messages : List String := []
  tree : FileTree
  deriving Repr

/-- The outcome of a command that an error ends. -/
def Outcome.ofError (tree : FileTree) (e : Error) : Outcome :=
  { exitCode := 1, messages := [errorLine e.message], tree }

/-- The configuration: that of the file, if there is one, with what the options say. -/
def Common.loadConfig (c : Common) (t : FileTree) : Except Error Config :=
  let base := match c.config with
    | some path => (t.loadConfig path).mapError Error.config
    | none => .ok {}
  base.map fun config =>
    { config with
      frequency.constantsPath := c.commonConstants <|> config.frequency.constantsPath
      frequency.callsPath := c.commonCalls <|> config.frequency.callsPath
      files.pretty := c.pretty || config.files.pretty }

/-! ## Many units -/

/-- The line that sums up a run. -/
def reportLine (r : BatchReport) : String :=
  toString r.units ++ " units, " ++ toString r.functions ++ " functions: " ++
    toString r.written ++ " written, " ++ toString r.skipped ++ " skipped, " ++
    toString r.failed ++ " failed (" ++ toString r.warnings ++ " warnings)"

/-- The command for many units. -/
def executeRun (t : FileTree) (summaries out : String) (jobs : Option Nat) (c : Common) :
    Outcome :=
  let inputs : BatchInputs :=
    { summaries, globalsDir := c.globals, structsDir := c.structs, outDir := out }
  let batch := do
    let config ← c.loadConfig t
    let numWorkers := jobs.getD config.parallel.numWorkers
    Batch.ofConfig t { config with parallel.numWorkers := numWorkers } inputs
  match batch with
  | .error e => .ofError t e
  | .ok batch =>
    match batch.run .inOrder { tree := t } with
    | (.error e, s) => .ofError s.tree e
    | (.ok report, s) => { exitCode := 0, messages := [reportLine report], tree := s.tree }

/-! ## One summary -/

/-- What is printed for a function: its result, if there is one, and messages. -/
structure Printed where
  result : Option String
  messages : List String
  deriving Repr

/-- The inputs of the command for one summary. -/
structure SummaryInputs where
  config : Config
  frequency : FrequencyTables
  metadata : Metadata
  functions : List Function
  deriving Repr

/-- Load the inputs of the command for one summary. -/
def loadInputs (t : FileTree) (summary : String) (c : Common) : Except Error SummaryInputs := do
  let config ← c.loadConfig t
  config.validate.mapError Error.config
  let frequency ← (t.loadFrequency config.frequency).mapError Error.config
  let metadata ← t.loadMetadata c.globals c.structs
  let functions ← t.loadSummary summary
  return { config, frequency, metadata, functions }

/-- The work on a function of the summary. -/
def SummaryInputs.print (s : SummaryInputs) (canonical : Bool) (f : Function) : Printed :=
  match processFunction f s.metadata s.frequency s.config with
  | .error e => ⟨none, [functionErrorLine f.name e.message]⟩
  | .ok output =>
    let json := if canonical then output.canonical.toJson else output.document.toJson
    ⟨some (json.text s.config.files.pretty),
      output.diagnostics.map fun d => f.name ++ ": " ++ d.line⟩

/-- The command for one summary. -/
def executeFunction (t : FileTree) (summary : String) (name : Option String) (canonical : Bool)
    (c : Common) : Outcome :=
  match loadInputs t summary c with
  | .error e => .ofError t e
  | .ok s =>
    let chosen := s.functions.filter fun f => name.all fun n => f.name == n
    if chosen.isEmpty then
      let message := "no function " ++ name.getD "<any>" ++ " in " ++ summary
      { exitCode := 1, messages := [errorLine message], tree := t }
    else
      let printed := chosen.map (s.print canonical)
      { exitCode := if printed.all fun p => p.result.isSome then 0 else 1
        out := "\n".intercalate (printed.filterMap Printed.result) ++ "\n"
        messages := printed.flatMap Printed.messages
        tree := t }

/-- What a command does. -/
def Command.execute (t : FileTree) : Command → Outcome
  | .run summaries out jobs common => executeRun t summaries out jobs common
  | .function summary name canonical common => executeFunction t summary name canonical common

end InstrGraph.CommandLine

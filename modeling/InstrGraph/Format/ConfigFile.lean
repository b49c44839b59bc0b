import InstrGraph.Config.Form
import InstrGraph.Config.Validation
import InstrGraph.Yaml.Node
import InstrGraph.Yaml.Writer

/-!
# Configuration files

A configuration file is a YAML record of a version and the sections of a configuration. The version
is checked before the configuration is, so that a file of another version is refused as such.

A mapping is a record, and so is an empty scalar, which leaves out every field. A text field takes
the text of any scalar; booleans and numbers have to be plain, or blocks with their tag. An alias
is read as the node that it stands for.
-/

namespace InstrGraph.Config

open Yaml

/-! ## Reading nodes

The first functions read a node that is no alias. -/

/-- The scalar is plain, or a literal block with the given tag. -/
def isWord (tag : String) : Style → Option String → Bool
  | .plain, _ => true
  | .literal, t => t == some tag
  | _, _ => false

/-- The text of a scalar. -/
def nodeString? : Node → Option String
  | .scalar _ _ text => some text
  | _ => none

/-- The value that a scalar of a type stands for. -/
def nodeWord? {α : Type} (tag : String) (read : String → Option α) : Node → Option α
  | .scalar style t text => if isWord tag style t then read text else none
  | _ => none

/-- The fields of a record of nodes, each name at most once and all of them known. A name is a node
of the document `d`, too. -/
def nodeFields? (d : Yaml.Document) (names : List String) : Node → Option (List (Option Node))
  | .mapping pairs =>
    match pairs.mapM fun (name, value) => (nodeString? (d.follow name)).map fun n => (n, value) with
    | none => none
    | some fields =>
      let used := fields.map Prod.fst
      if used.all names.contains && used.Nodup then
        some (names.map fun n => fields.lookup n)
      else none
  | .scalar .plain _ "" => some (names.map fun _ => none)
  | _ => none

/-- The items of a list. -/
def nodeItems? : Node → Option (List Node)
  | .sequence items => some items
  | .scalar .plain _ "" => some []
  | _ => none

/-- The word in a tag of the document's own. Its octets have to be a text. -/
def tagWord? (tag : String) : Option String :=
  match tag.toList with
  | '!' :: octets => String.fromUTF8? ⟨(octets.map fun c => c.toNat.toUInt8).toArray⟩
  | _ => none

/-- A word out of a choice: the text of a scalar, or the word in its tag without a value. -/
def nodeChoice? : Node → Option String
  | .scalar style tag text =>
    match tag.bind tagWord? with
    | some word => if style = .plain && (text.isEmpty || isNullWord text) then some word else none
    | none => some text
  | _ => none

/-- Whether a node stands for the absence of a value. With the tag for that it must be one of the
words for it. -/
def nodeIsNull? : Node → Option Bool
  | .scalar .plain none text => some (text.isEmpty || isNullWord text)
  | .scalar .plain (some tag) text =>
    if tag = "tag:yaml.org,2002:null" then if isNullWord text then some true else none
    else some false
  | _ => some false

/-- How the nodes of a document are read. -/
def nodeForm (d : Yaml.Document) : Form Node where
  fields? names node := nodeFields? d names (d.follow node)
  list? node := nodeItems? (d.follow node)
  bool? node := nodeWord? "tag:yaml.org,2002:bool" Yaml.bool? (d.follow node)
  string? node := nodeString? (d.follow node)
  word? node := nodeChoice? (d.follow node)
  signed? node := nodeWord? "tag:yaml.org,2002:int" Yaml.signed? (d.follow node)
  unsigned? node := nodeWord? "tag:yaml.org,2002:int" Yaml.unsigned? (d.follow node)
  isNull? node := nodeIsNull? (d.follow node)

/-! ## Files -/

/-- The versions of the file format that can be read. -/
def supportedVersions : List Nat := [1]

/-- What a configuration file says, before it is checked. -/
structure File where
  version : Option Nat
  config : Config
  deriving DecidableEq, Repr

/-- A version number. -/
def version? {ν : Type} (F : Form ν) (v : ν) : Option Nat :=
  (F.unsigned? v).filter fun n => n < 0x100000000

/-- The file that a document describes. -/
def File.ofDocument? (d : Yaml.Document) : Option File :=
  let F := nodeForm d
  match F.fields? ("version" :: Form.sectionNames) d.root with
  | some (version :: sections) =>
    (Form.field none (F.nullable? (version? F)) version).bind fun version =>
      (F.config? sections).map fun config => { version, config }
  | _ => none

/-- The configuration of a file, if its version is supported and the configuration is sensible. -/
def File.check (f : File) : Except ConfigError Config :=
  match f.version with
  | none => .error .missingVersion
  | some v =>
    if supportedVersions.contains v then f.config.validate.map fun _ => f.config
    else .error (.unsupportedVersion v supportedVersions)

/-- What is said about a text that is no configuration file. -/
def complaint : Option Yaml.Document → String
  | none => "not YAML"
  | some _ => "not a configuration"

/-- The configuration in the text of a file. -/
def ofYaml (text : String) : Except ConfigError Config :=
  match (Yaml.read? text).bind File.ofDocument? with
  | some f => f.check
  | none => .error (@ConfigError.yaml (complaint (Yaml.read? text)))

/-! ## Writing files -/

/-- A number, or the word for its absence. -/
def numberValue : Option Nat → Value
  | some n => .word (toString n)
  | none => .word "null"

/-- A text, or the word for its absence. -/
def textValue : Option String → Value
  | some s => .text s
  | none => .word "null"

/-- A boolean. -/
def boolValue (b : Bool) : Value := .word (if b then "true" else "false")

/-- The record of a configuration file, with every field. -/
def toRecord (c : Config) : List (String × Value) :=
  [("version", .word "1"),
    ("canonicalize", .record
      [("label_style", .word c.canonicalize.labelStyle.name),
        ("rename_globals", boolValue c.canonicalize.renameGlobals),
        ("always_literal", .words (c.canonicalize.alwaysLiteral.map toString)),
        ("constant_placeholder", .text c.canonicalize.constantPlaceholder)]),
    ("frequency", .record
      [("constants_path", textValue c.frequency.constantsPath),
        ("calls_path", textValue c.frequency.callsPath),
        ("min_count", .word (toString c.frequency.minCount)),
        ("top_k", numberValue c.frequency.topK)]),
    ("graph", .record
      [("condition_edge", .word c.graph.conditionEdge.name),
        ("report_unreachable_blocks", boolValue c.graph.reportUnreachableBlocks)]),
    ("parallel", .record
      [("num_workers", .word (toString c.parallel.numWorkers)),
        ("stack_size_mb", .word (toString c.parallel.stackSizeMb))]),
    ("io", .record
      [("summary_suffix", .text c.files.summarySuffix),
        ("globals_suffix", .text c.files.globalsSuffix),
        ("structs_suffix", .text c.files.structsSuffix),
        ("iscg_suffix", .text c.files.graphSuffix),
        ("write_canonical", boolValue c.files.writeCanonical),
        ("skip_existing", boolValue c.files.skipExisting),
        ("pretty", boolValue c.files.pretty)])]

/-- The text of a configuration file. -/
def toYaml (c : Config) : String := Yaml.write c.toRecord

end InstrGraph.Config

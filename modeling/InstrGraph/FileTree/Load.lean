import InstrGraph.FileTree.Basic
import InstrGraph.Format.ConfigFile
import InstrGraph.Format.Function
import InstrGraph.Format.Metadata
import InstrGraph.Format.Symbols
import InstrGraph.Json.Reader

/-!
# Loading inputs

Reading the inputs of a run from a tree of files: the summary of a unit with its companions, the
tables of counts, and the configuration.
-/

namespace InstrGraph

namespace FileTree

/-- The text of a file; a failure names the path. -/
def readText (t : FileTree) (path : String) : Except Error String :=
  (t.read path).mapError (Error.file path)

/-! ## Inputs -/

/-- What is said about a text that is read as a value and cannot be used. -/
def complaint : Option Json → String
  | none => "not JSON"
  | some _ => "not of the expected form"

/-- The value of a text of the form that is wanted. -/
def parse {α : Type} (ofJson? : Json → Option α) (text : String) : Except Error α :=
  match (Json.read? text).bind ofJson? with
  | some a => .ok a
  | none => .error (@Error.json (complaint (Json.read? text)))

/-- The functions of a summary file. -/
def loadSummary (t : FileTree) (path : String) : Except Error (List Function) :=
  (t.readText path).bind (parse Function.summaryOfJson?)

/-- The text of a companion file; a missing one is an empty table. -/
def readCompanion (t : FileTree) : Option String → Except Error String
  | none => .ok "\x7b\x7d"
  | some path => if t.hasFile path then t.readText path else .ok "\x7b\x7d"

/-- The metadata of the two companion files. -/
def loadMetadata (t : FileTree) (globals structs : Option String) : Except Error Metadata := do
  let globals ← t.readCompanion globals
  let structs ← t.readCompanion structs
  match Json.read? globals, Json.read? structs with
  | some g, some s =>
    match Metadata.ofTables? g s with
    | some m => .ok m
    | none => .error (@Error.json (complaint (some g)))
  | _, _ => .error (@Error.json (complaint none))

/-- The counts of a file; without a file there are none. -/
def loadCounts (t : FileTree) : Option String → Except ConfigError Counts
  | none => .ok []
  | some path =>
    match t.read path with
    | .error e => .error (.file e)
    | .ok text =>
      match (Json.read? text).bind Counts.ofJson? with
      | some counts => .ok counts
      | none => .error (@ConfigError.frequencyTable path (complaint (Json.read? text)))

/-- The tables of common constants and callees that a configuration names. -/
def loadFrequency (t : FileTree) (config : Config.Frequency) :
    Except ConfigError FrequencyTables := do
  let constants ← t.loadCounts config.constantsPath
  let calls ← t.loadCounts config.callsPath
  return .ofCounts constants calls config

/-- The configuration of a file. -/
def loadConfig (t : FileTree) (path : String) : Except ConfigError Config :=
  match t.read path with
  | .error e => .error (.file e)
  | .ok text => Config.ofYaml text

/-! ## Units -/

/-- The file name is that of a summary: it ends with the suffix, and is more than that. -/
def isSummaryName (suffix name : String) : Bool :=
  suffix.toList.isSuffixOf name.toList && name != suffix

/-- The summary files at or below a path, in the order of their paths. -/
def unitsBelow (t : FileTree) (root suffix : String) : Except Error (List String) :=
  match t.locate root with
  | .error e => .error (.file root e)
  | .ok p =>
    match t.entry? p with
    | none => .error (.file root .notFound)
    | some (.file _) =>
      .ok (if isSummaryName suffix ((Path.fileName? root).getD root) then [root] else [])
    | some .directory =>
      let summaries := (t.filesBelow p).filter fun f =>
        f.1.getLast?.any fun name => isSummaryName suffix name
      .ok ((summaries.map fun f => pathBelow root f.1).mergeSort fun a b => !Path.before b a)

end FileTree

end InstrGraph

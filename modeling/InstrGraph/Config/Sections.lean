/-!
# The sections of a configuration

One structure for each stage of the work, with its defaults. Which values are sensible is said in
`InstrGraph.Config.Validation`.
-/

namespace InstrGraph.Config

/-- How canonical block labels are named. -/
inductive LabelStyle where
  | label
  | block
  deriving DecidableEq, Repr

namespace LabelStyle

/-- The word for a style. -/
def name : LabelStyle → String
  | label => "label"
  | block => "block"

/-- What the labels of a style begin with. -/
def stem : LabelStyle → String
  | label => "%label_"
  | block => "%block_"

end LabelStyle

/-- How functions are made canonical. -/
structure Canonicalize where
  labelStyle : LabelStyle := .label
  /-- Rename globals too. -/
  renameGlobals : Bool := false
  /-- The integers that are never hidden. -/
  alwaysLiteral : List Int := [0, 1, 8]
  /-- What stands for a hidden integer. -/
  constantPlaceholder : String := "<const>"
  deriving DecidableEq, Repr

/-- Which constants and callees are common. -/
structure Frequency where
  /-- The file that counts constants. -/
  constantsPath : Option String := none
  /-- The file that counts callees. -/
  callsPath : Option String := none
  /-- The count from which an entry is common. -/
  minCount : Nat := 1
  /-- How many entries are common at most. -/
  topK : Option Nat := none
  deriving DecidableEq, Repr

/-- The kind of edge by which a condition flows into its branch. -/
inductive ConditionEdge where
  | data
  | condition
  deriving DecidableEq, Repr

/-- The word for a kind of condition edge. -/
def ConditionEdge.name : ConditionEdge → String
  | data => "data"
  | condition => "condition"

/-- How graphs are built. -/
structure Graph where
  conditionEdge : ConditionEdge := .data
  /-- Warn about blocks that nothing leads to. -/
  reportUnreachableBlocks : Bool := true
  deriving DecidableEq, Repr

/-- How many workers share the work. -/
structure Parallel where
  /-- Zero stands for one worker on every core. -/
  numWorkers : Nat := 0
  stackSizeMb : Nat := 8
  deriving DecidableEq, Repr

/-- How files are named and written. -/
structure Files where
  summarySuffix : String := "_info_summary.json"
  globalsSuffix : String := "_globals.json"
  structsSuffix : String := "_structs.json"
  /-- How the name of a graph file ends. -/
  graphSuffix : String := "_iscg.json"
  /-- Write the canonical functions of a unit beside its graphs. -/
  writeCanonical : Bool := true
  /-- Leave alone what has been written before. -/
  skipExisting : Bool := true
  pretty : Bool := false
  deriving DecidableEq, Repr

end InstrGraph.Config

namespace InstrGraph

/-- A whole configuration. -/
structure Config where
  canonicalize : Config.Canonicalize := {}
  frequency : Config.Frequency := {}
  graph : Config.Graph := {}
  parallel : Config.Parallel := {}
  files : Config.Files := {}
  deriving DecidableEq, Repr

end InstrGraph

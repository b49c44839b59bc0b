import InstrGraph.Config.Sections

/-!
# Reading the sections of a configuration

A configuration is written in more than one notation. `Form` says what its notations have in
common: how scalars, lists and records are read off a value. Each section is then read once for
all of them. A section may leave out any field, but it may not have fields of other names.
-/

namespace InstrGraph.Config

/-- How the values of a notation are read. -/
structure Form (ν : Type) where
  /-- A record with fields of the given names only, in the order of the names. -/
  fields? : List String → ν → Option (List (Option ν))
  list? : ν → Option (List ν)
  bool? : ν → Option Bool
  string? : ν → Option String
  /-- A word out of a choice. -/
  word? : ν → Option String
  /-- An integer of 64 bits with sign. -/
  signed? : ν → Option Int
  /-- An integer of 64 bits without sign. -/
  unsigned? : ν → Option Nat
  /-- Whether the value stands for the absence of one; `none` if it claims so and does not. -/
  isNull? : ν → Option Bool

namespace Form

variable {ν : Type}

/-- A field with a default. -/
def field {α : Type} (default : α) (read : ν → Option α) : Option ν → Option α
  | none => some default
  | some v => read v

/-- A value that may be absent. -/
def nullable? {α : Type} (F : Form ν) (read : ν → Option α) (v : ν) : Option (Option α) :=
  match F.isNull? v with
  | none => none
  | some true => some none
  | some false => (read v).map some

/-- A label style. -/
def labelStyle? (F : Form ν) (v : ν) : Option LabelStyle :=
  match F.word? v with
  | some "label" => some .label
  | some "block" => some .block
  | _ => none

/-- A kind of condition edge. -/
def conditionEdge? (F : Form ν) (v : ν) : Option ConditionEdge :=
  match F.word? v with
  | some "data" => some .data
  | some "condition" => some .condition
  | _ => none

/-- The section about canonical functions. -/
def canonicalize? (F : Form ν) (v : ν) : Option Canonicalize :=
  let d : Canonicalize := {}
  match F.fields? ["label_style", "rename_globals", "always_literal", "constant_placeholder"] v with
  | some [labelStyle, renameGlobals, alwaysLiteral, constantPlaceholder] => do
    let labelStyle ← field d.labelStyle F.labelStyle? labelStyle
    let renameGlobals ← field d.renameGlobals F.bool? renameGlobals
    let alwaysLiteral ←
      field d.alwaysLiteral (fun v => (F.list? v).bind (·.mapM F.signed?)) alwaysLiteral
    let constantPlaceholder ← field d.constantPlaceholder F.string? constantPlaceholder
    return { labelStyle, renameGlobals, alwaysLiteral, constantPlaceholder }
  | _ => none

/-- The section about common constants and callees. -/
def frequency? (F : Form ν) (v : ν) : Option Frequency :=
  let d : Frequency := {}
  match F.fields? ["constants_path", "calls_path", "min_count", "top_k"] v with
  | some [constantsPath, callsPath, minCount, topK] => do
    let constantsPath ← field d.constantsPath (F.nullable? F.string?) constantsPath
    let callsPath ← field d.callsPath (F.nullable? F.string?) callsPath
    let minCount ← field d.minCount F.unsigned? minCount
    let topK ← field d.topK (F.nullable? F.unsigned?) topK
    return { constantsPath, callsPath, minCount, topK }
  | _ => none

/-- The section about graphs. -/
def graph? (F : Form ν) (v : ν) : Option Graph :=
  let d : Graph := {}
  match F.fields? ["condition_edge", "report_unreachable_blocks"] v with
  | some [conditionEdge, reportUnreachableBlocks] => do
    let conditionEdge ← field d.conditionEdge F.conditionEdge? conditionEdge
    let reportUnreachableBlocks ← field d.reportUnreachableBlocks F.bool? reportUnreachableBlocks
    return { conditionEdge, reportUnreachableBlocks }
  | _ => none

/-- The section about workers. -/
def parallel? (F : Form ν) (v : ν) : Option Parallel :=
  let d : Parallel := {}
  match F.fields? ["num_workers", "stack_size_mb"] v with
  | some [numWorkers, stackSizeMb] => do
    let numWorkers ← field d.numWorkers F.unsigned? numWorkers
    let stackSizeMb ← field d.stackSizeMb F.unsigned? stackSizeMb
    return { numWorkers, stackSizeMb }
  | _ => none

/-- The section about files. -/
def files? (F : Form ν) (v : ν) : Option Files :=
  let d : Files := {}
  match F.fields? ["summary_suffix", "globals_suffix", "structs_suffix", "iscg_suffix",
      "write_canonical", "skip_existing", "pretty"] v with
  | some [summarySuffix, globalsSuffix, structsSuffix, graphSuffix, writeCanonical, skipExisting,
      pretty] => do
    let summarySuffix ← field d.summarySuffix F.string? summarySuffix
    let globalsSuffix ← field d.globalsSuffix F.string? globalsSuffix
    let structsSuffix ← field d.structsSuffix F.string? structsSuffix
    let graphSuffix ← field d.graphSuffix F.string? graphSuffix
    let writeCanonical ← field d.writeCanonical F.bool? writeCanonical
    let skipExisting ← field d.skipExisting F.bool? skipExisting
    let pretty ← field d.pretty F.bool? pretty
    return { summarySuffix, globalsSuffix, structsSuffix, graphSuffix, writeCanonical,
             skipExisting, pretty }
  | _ => none

/-- The names of the sections, in order. -/
def sectionNames : List String := ["canonicalize", "frequency", "graph", "parallel", "io"]

/-- A configuration out of its sections, any of them left out. -/
def config? (F : Form ν) : List (Option ν) → Option Config
  | [canonicalize, frequency, graph, parallel, files] => do
    let canonicalize ← field {} F.canonicalize? canonicalize
    let frequency ← field {} F.frequency? frequency
    let graph ← field {} F.graph? graph
    let parallel ← field {} F.parallel? parallel
    let files ← field {} F.files? files
    return { canonicalize, frequency, graph, parallel, files }
  | _ => none

end Form

end InstrGraph.Config

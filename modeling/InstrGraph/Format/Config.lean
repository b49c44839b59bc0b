import InstrGraph.Config.Form
import InstrGraph.Json.Fields

/-!
# Configurations as JSON

A configuration is a record of its sections, others ignored; a section is a record of its fields,
without others.
-/

namespace InstrGraph.Config

/-- A record whose members all have known names. -/
def closedFields? (names : List String) (j : Json) : Option (List (Option Json)) :=
  match j with
  | .object members =>
    if members.all fun m => names.contains m.1 then j.fields? (names.map fun n => [n]) else none
  | _ => j.fields? (names.map fun n => [n])

/-- How JSON values are read. -/
def jsonForm : Form Json where
  fields? := closedFields?
  list? := Json.list? some
  bool? := Json.bool?
  string? := Json.string?
  word? := Json.word?
  signed? := Json.intBetween? (-0x8000000000000000) 0x7FFFFFFFFFFFFFFF
  unsigned? := Json.word64?
  isNull? := fun
    | .null => some true
    | _ => some false

/-- A configuration. -/
def ofJson? (j : Json) : Option Config :=
  (j.fields? (Form.sectionNames.map fun n => [n])).bind jsonForm.config?

/-- A number, or `null` for its absence. -/
def natOrNull : Option Nat → Json
  | some n => .int n
  | none => .null

/-- The members of a configuration, with every field. -/
def toJson (c : Config) : Json :=
  .object
    [("canonicalize", .object
        [("label_style", .string c.canonicalize.labelStyle.name),
          ("rename_globals", .bool c.canonicalize.renameGlobals),
          ("always_literal", .array (c.canonicalize.alwaysLiteral.map .int)),
          ("constant_placeholder", .string c.canonicalize.constantPlaceholder)]),
      ("frequency", .object
        [("constants_path", Json.stringOrNull c.frequency.constantsPath),
          ("calls_path", Json.stringOrNull c.frequency.callsPath),
          ("min_count", .int c.frequency.minCount), ("top_k", natOrNull c.frequency.topK)]),
      ("graph", .object
        [("condition_edge", .string c.graph.conditionEdge.name),
          ("report_unreachable_blocks", .bool c.graph.reportUnreachableBlocks)]),
      ("parallel", .object
        [("num_workers", .int c.parallel.numWorkers),
          ("stack_size_mb", .int c.parallel.stackSizeMb)]),
      ("io", .object
        [("summary_suffix", .string c.files.summarySuffix),
          ("globals_suffix", .string c.files.globalsSuffix),
          ("structs_suffix", .string c.files.structsSuffix),
          ("iscg_suffix", .string c.files.graphSuffix),
          ("write_canonical", .bool c.files.writeCanonical),
          ("skip_existing", .bool c.files.skipExisting), ("pretty", .bool c.files.pretty)])]

end InstrGraph.Config

import InstrGraph.Diagnostic
import InstrGraph.Json.Fields

/-!
# Warnings as JSON

A warning is an object of its kind, its instruction (left out if there is none) and its message.
-/

namespace InstrGraph

open Json (required withDefault nullable? string?)

/-- The kind of a word. -/
def DiagnosticKind.ofJson? (j : Json) : Option DiagnosticKind :=
  match j.word? with
  | some "unresolved_reference" => some .unresolvedReference
  | some "metadata_gap" => some .metadataGap
  | some "unreachable_block" => some .unreachableBlock
  | _ => none

namespace Diagnostic

/-- The members of a warning, in the order in which they are written. -/
def toJson (d : Diagnostic) : Json :=
  .object <|
    [("kind", .string d.kind.name)] ++
    (match d.instructionId with
      | some id => [("instruction_id", .int id.toNat)]
      | none => []) ++
    [("message", .string d.message)]

/-- A warning; its instruction may be left out. -/
def ofJson? (j : Json) : Option Diagnostic :=
  match j.fields? [["kind"], ["instruction_id"], ["message"]] with
  | some [kind, id, message] => do
    let kind ← required DiagnosticKind.ofJson? kind
    let id ← withDefault none (nullable? Json.word32?) id
    let message ← required string? message
    return ⟨kind, id, message⟩
  | _ => none

end Diagnostic

end InstrGraph

import InstrGraph.ErrorLog
import InstrGraph.Json.Fields

/-!
# The log of a run as JSON

A row is one object of its key and its entry; of the entry, what is absent is left out.
-/

namespace InstrGraph

open Json (required withDefault nullable? list? string?)

namespace Failure

/-- The members of a failure. -/
def toJson (f : Failure) : Json :=
  .object [("kind", .string f.kind), ("message", .string f.message)]

/-- A failure. -/
def ofJson? (j : Json) : Option Failure :=
  match j.fields? [["kind"], ["message"]] with
  | some [kind, message] => do
    let kind ← required string? kind
    let message ← required string? message
    return ⟨kind, message⟩
  | _ => none

end Failure

namespace LogRow

/-- The members of a row. -/
def toJson (r : LogRow) : Json :=
  .object <|
    [("unit", .string r.key.unit), ("function", .string r.key.function)] ++
    (match r.entry.error with
      | some f => [("error", f.toJson)]
      | none => []) ++
    Json.memberIfAny "warnings" r.entry.warnings

/-- A row. Its parts share one object, so every member of it is read, those without a meaning
too. -/
def ofJson? (j : Json) : Option LogRow :=
  match j with
  | .object _ =>
    if j.readable Json.depthLimit then
      match j.fields? [["unit"], ["function"], ["error"], ["warnings"]] with
      | some [unit, function, error, warnings] => do
        let unit ← required string? unit
        let function ← required string? function
        let error ← withDefault none (nullable? Failure.ofJson?) error
        let warnings ← withDefault [] (list? string?) warnings
        return ⟨⟨unit, function⟩, ⟨error, warnings⟩⟩
      | _ => none
    else none
  | _ => none

end LogRow

namespace ErrorLog

/-- The rows of a log. -/
def toJson (l : ErrorLog) : Json := .array (l.rows.map LogRow.toJson)

end ErrorLog

end InstrGraph

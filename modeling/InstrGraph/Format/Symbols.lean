import InstrGraph.Json.Fields
import InstrGraph.Symbols.Frequency
import InstrGraph.Symbols.Tables

/-!
# Symbol tables and counts as JSON

A rename table is an object from names to canonical names, in the order of first sight. Counts are
an object of numbers, or a list of names that is ranked already.
-/

namespace InstrGraph

namespace RenameTable

/-- The members of a rename table. -/
def toJson (t : RenameTable) : Json := .object (t.entries.map fun (n, c) => (n, .string c))

end RenameTable

namespace SymbolTables

/-- The tables of a function; that of the globals is left out if there is none. -/
def toJson (s : SymbolTables) : Json :=
  .object <|
    [("vars", s.vars.toJson), ("params", s.params.toJson), ("labels", s.labels.toJson),
      ("structs", s.structs.toJson), ("calls", s.calls.toJson)] ++
    (match s.globals with
      | some t => [("globals", t.toJson)]
      | none => []) ++
    [("exempt_calls", Json.strings s.exemptCalls)]

end SymbolTables

namespace Counts

/-- The counts of an object or of a ranked list. The last count of a name counts. -/
def ofJson? (j : Json) : Option Counts :=
  if j.readable Json.depthLimit then
    match j with
    | .object _ => (Json.members? Json.word64? j).map Json.lastOfEach
    | .array items => (items.mapM Json.string?).map ofRanking
    | _ => none
  else none

end Counts

end InstrGraph

import InstrGraph.Json.Fields
import InstrGraph.Metadata

/-!
# Metadata as JSON

Each of the two tables is an object, or `null` if it is empty. An entry of the globals may leave
out any field; the definition is also found under `define`, the class also under `global_type`.
-/

namespace InstrGraph

open Json (withDefault nullable? string?)

namespace GlobalType

/-- A class by its word. Words without a class are read as `unknown`. -/
def ofJson? (j : Json) : Option GlobalType := j.word?.map ofName

end GlobalType

namespace GlobalInfo

/-- The members of an entry, in the order in which they are written. -/
def toJson (g : GlobalInfo) : Json :=
  .object [("type", .string g.globalType.name), ("linkage", .string g.linkage),
    ("raw_definition", .string g.definition), ("value", g.value), ("value_lens", g.valueLens)]

/-- The names of the fields of an entry, in order. -/
def fieldNames : List (List String) :=
  [["type", "global_type"], ["linkage"], ["raw_definition", "define"], ["value"], ["value_lens"]]

/-- An entry of the globals that stands below `above` objects of its text. -/
def ofJson? (above : Nat) (j : Json) : Option GlobalInfo :=
  match j.fields? fieldNames with
  | some [globalType, linkage, definition, value, valueLens] => do
    let globalType ← withDefault .unknown GlobalType.ofJson? globalType
    let linkage ← withDefault "" string? linkage
    let definition ← withDefault "" string? definition
    let value ← withDefault .null (Json.free? (above + 1)) value
    let valueLens ← withDefault .null (Json.free? (above + 1)) valueLens
    return { globalType, linkage, definition, value, valueLens }
  | _ => none

end GlobalInfo

namespace Metadata

/-- A table of globals that stands below `above` objects of its text. -/
def globalsOfJson? (above : Nat) (j : Json) : Option (List (String × GlobalInfo)) :=
  (nullable? (Json.members? (GlobalInfo.ofJson? (above + 1))) j).map fun t =>
    Json.lastOfEach (t.getD [])

/-- A table of aggregate types that stands below `above` objects of its text. -/
def structsOfJson? (above : Nat) (j : Json) : Option (List (String × Json)) :=
  (nullable? (Json.members? (Json.free? (above + 1))) j).map fun t => Json.lastOfEach (t.getD [])

/-- The metadata of two tables. -/
def ofTables? (globals structs : Json) : Option Metadata := do
  let globals ← globalsOfJson? 0 globals
  let structs ← structsOfJson? 0 structs
  return ⟨globals, structs⟩

/-- The metadata of one object that holds both tables. -/
def ofJson? (j : Json) : Option Metadata :=
  match j.fields? [["globals"], ["structs"]] with
  | some [globals, structs] => do
    let globals ← withDefault [] (globalsOfJson? 1) globals
    let structs ← withDefault [] (structsOfJson? 1) structs
    return ⟨globals, structs⟩
  | _ => none

end Metadata

end InstrGraph

import InstrGraph.Json.Basic

/-!
# Values of a known shape

Readers for the shapes that domain values have in JSON: scalars, optional values, lists, words out
of a fixed choice, and records. A record is an object whose known members occur at most once, in
any order and among others; or it is an array of its fields in their order, where the last ones may
be missing. Which fields may be missing is up to the reader of the record.
-/

namespace InstrGraph.Json

/-- A string. -/
def string? : Json → Option String
  | string s => some s
  | _ => none

/-- A boolean. -/
def bool? : Json → Option Bool
  | bool b => some b
  | _ => none

/-- An integer between two bounds. -/
def intBetween? (low high : Int) : Json → Option Int
  | int n => if low ≤ n && n ≤ high then some n else none
  | _ => none

/-- An integer of 32 bits without sign. -/
def word32? (j : Json) : Option UInt32 :=
  (intBetween? 0 0xFFFFFFFF j).map fun n => UInt32.ofNat n.toNat

/-- An integer of 64 bits without sign. -/
def word64? (j : Json) : Option Nat := (intBetween? 0 0xFFFFFFFFFFFFFFFF j).map Int.toNat

/-- A list of values of one shape. -/
def list? {α : Type} (item : Json → Option α) : Json → Option (List α)
  | array items => items.mapM item
  | _ => none

/-- A value, or `null` for its absence. -/
def nullable? {α : Type} (value : Json → Option α) : Json → Option (Option α)
  | null => some none
  | j => (value j).map some

/-- A word out of a choice: the word itself, or an object that gives it nothing. -/
def word? : Json → Option String
  | string s => some s
  | object [(s, null)] => some s
  | _ => none

/-- The members of an object, in order, each with a value of one shape. -/
def members? {α : Type} (value : Json → Option α) : Json → Option (List (String × α))
  | object members => members.mapM fun (name, j) => (value j).map fun v => (name, v)
  | _ => none

/-- The members without those whose name comes again later. -/
def lastOfEach {α : Type} (members : List (String × α)) : List (String × α) :=
  members.foldl (fun table m => table.filter (fun t => t.1 ≠ m.1) ++ [m]) []

/-- The member with one of the given names: absent, present, or (as an error) repeated. -/
def member? (names : List String) (members : List (String × Json)) : Option (Option Json) :=
  match members.filter fun m => names.contains m.1 with
  | [] => some none
  | [(_, j)] => some (some j)
  | _ => none

/-- The fields of a record, each under any of its names. -/
def fields? (names : List (List String)) : Json → Option (List (Option Json))
  | object members => names.mapM fun ns => member? ns members
  | array items =>
    if items.length ≤ names.length then
      some (items.map some ++ List.replicate (names.length - items.length) none)
    else none
  | _ => none

/-- A field that must be there. -/
def required {α : Type} (value : Json → Option α) (field : Option Json) : Option α :=
  field.bind value

/-- A field that has a default. -/
def withDefault {α : Type} (default : α) (value : Json → Option α) : Option Json → Option α
  | none => some default
  | some j => value j

/-! ## Writing -/

/-- A list of strings. -/
def strings (xs : List String) : Json := array (xs.map string)

/-- A member that is left out if its value is absent. -/
def memberIfSome (name : String) : Option String → List (String × Json)
  | none => []
  | some s => [(name, string s)]

/-- A member that is left out if its list is empty. -/
def memberIfAny (name : String) (xs : List String) : List (String × Json) :=
  if xs.isEmpty then [] else [(name, strings xs)]

/-- A string, or `null` for its absence. -/
def stringOrNull : Option String → Json
  | none => null
  | some s => string s

end InstrGraph.Json

/-!
# JSON values

A value as it stands in a text: the members of an object keep their order and their repetitions.
An integer that fits into 64 bits, with sign or without, stays an integer; any other number is a
double, kept by its bits.

`unreadable` stands for a scalar that is written correctly but has no value: a number beyond the
doubles, or a string with an unpaired surrogate (also where it is the name of a member). It does no
harm in a place that nobody reads.

A *free* value is one whose shape is up to the user. `free?` brings it into its normal form: the
members of an object sorted by name, the last one of a name kept.
-/

namespace InstrGraph

/-- A JSON value. -/
inductive Json where
  | null
  | bool (b : Bool)
  | int (n : Int)
  | double (bits : UInt64)
  | string (s : String)
  | array (items : List Json)
  | object (members : List (String × Json))
  | unreadable
  deriving Repr, Inhabited, BEq

namespace Json

/-- Put a member into a list sorted by name; a member of that name is replaced. -/
def insertMember (name : String) (value : Json) : List (String × Json) → List (String × Json)
  | [] => [(name, value)]
  | (n, v) :: rest =>
    if name < n then (name, value) :: (n, v) :: rest
    else if name = n then (name, value) :: rest
    else (n, v) :: insertMember name value rest

mutual

/-- The value with the members of every object sorted by name, the last one of a name kept. -/
def normal : Json → Json
  | array items => array (normalItems items)
  | object members => object (normalMembers [] members)
  | j => j

/-- The items of an array in normal form. -/
def normalItems : List Json → List Json
  | [] => []
  | j :: rest => normal j :: normalItems rest

/-- The members of an object in normal form, put into those that are sorted already. -/
def normalMembers (sorted : List (String × Json)) : List (String × Json) → List (String × Json)
  | [] => sorted
  | (name, j) :: rest => normalMembers (insertMember name (normal j) sorted) rest

end

mutual

/-- Every scalar has a value, and at most `room` arrays and objects are nested. -/
def readable (room : Nat) : Json → Bool
  | array items => room != 0 && readableItems (room - 1) items
  | object members => room != 0 && readableMembers (room - 1) members
  | unreadable => false
  | _ => true

/-- Every item of an array is readable. -/
def readableItems (room : Nat) : List Json → Bool
  | [] => true
  | j :: rest => readable room j && readableItems room rest

/-- Every member of an object is readable. -/
def readableMembers (room : Nat) : List (String × Json) → Bool
  | [] => true
  | (_, j) :: rest => readable room j && readableMembers room rest

end

/-- The nesting that a reader goes along with. -/
def depthLimit : Nat := 127

/-- The normal form of a free value that stands below `above` arrays and objects of its text. -/
def free? (above : Nat) (j : Json) : Option Json :=
  if readable (depthLimit - above) j then some j.normal else none

end Json

end InstrGraph

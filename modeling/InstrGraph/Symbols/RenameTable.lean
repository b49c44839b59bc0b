/-!
# Rename tables

A rename table gives every name it is shown a canonical one: a fixed stem and a running number, in
the order of first sight. It can be asked in both directions.

* `entries_insert` : inserting a name that is known changes nothing, and a new one comes last.
* `get?_insert_self` : after an insertion the name has the canonical name that `insert` returns.
-/

namespace InstrGraph

/-- Canonical names for the names of one kind, in the order in which they were first seen. -/
structure RenameTable where
  /-- What every canonical name begins with. -/
  stem : String
  /-- The number of the first canonical name. -/
  base : Nat
  /-- The names with their canonical names. -/
  entries : List (String × String) := []
  deriving DecidableEq, Repr

namespace RenameTable

/-- A table without names. -/
def empty (stem : String) (base : Nat) : RenameTable := { stem, base }

/-- The canonical name of the name at an index. -/
def canonicalAt (t : RenameTable) (index : Nat) : String := t.stem ++ toString (t.base + index)

/-- The canonical name of a name. -/
def get? (t : RenameTable) (name : String) : Option String := t.entries.lookup name

/-- The name is known. -/
def contains (t : RenameTable) (name : String) : Bool := (t.get? name).isSome

/-- The name that a canonical name stands for. -/
def originalOf? (t : RenameTable) (canonical : String) : Option String :=
  (t.entries.find? fun e => e.2 == canonical).map Prod.fst

/-- How many names the table has. -/
def size (t : RenameTable) : Nat := t.entries.length

/-- The names, in the order of first sight. -/
def names (t : RenameTable) : List String := t.entries.map Prod.fst

/-- Show the table a name. A known one changes nothing. -/
def insert (t : RenameTable) (name : String) : RenameTable :=
  if t.contains name then t
  else { t with entries := t.entries ++ [(name, t.canonicalAt t.size)] }

/-- Show the table names in order. -/
def insertAll (t : RenameTable) (names : List String) : RenameTable := names.foldl insert t

/-- A new name is put behind the others with the canonical name of the next index. -/
theorem entries_insert (t : RenameTable) (name : String) :
    (t.insert name).entries =
      if t.contains name then t.entries
      else t.entries ++ [(name, t.canonicalAt t.size)] := by
  unfold insert
  split <;> rfl

/-- A name that is inserted has the canonical name that it had, or that of the next index. -/
theorem get?_insert_self (t : RenameTable) (name : String) :
    (t.insert name).get? name = some ((t.get? name).getD (t.canonicalAt t.size)) := by
  cases h : t.entries.lookup name with
  | some c => simp [insert, contains, get?, h]
  | none => simp [insert, contains, get?, h, List.lookup_append]

end RenameTable

end InstrGraph

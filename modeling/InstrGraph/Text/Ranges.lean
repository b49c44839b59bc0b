/-!
# Sets of characters given by ranges

A character property of the Unicode standard is a list of inclusive ranges of code points, in
increasing order. `Ranges.contains` decides membership; the order is for the reader, membership
does not depend on it (`contains_iff`).
-/

namespace InstrGraph.Text

/-- Inclusive ranges of code points, in increasing order. -/
abbrev Ranges := List (Nat × Nat)

/-- Some range of the list holds the code point of `c`. -/
def Ranges.contains (rs : Ranges) (c : Char) : Bool :=
  rs.any fun r => r.1 ≤ c.toNat && c.toNat ≤ r.2

/-- A character is in a table if one of the ranges holds its code. -/
theorem Ranges.contains_iff {rs : Ranges} {c : Char} :
    rs.contains c = true ↔ ∃ r ∈ rs, r.1 ≤ c.toNat ∧ c.toNat ≤ r.2 := by
  simp [Ranges.contains]

end InstrGraph.Text

import InstrGraph.Text.Blank

/-!
# Last words and block labels

The name in a phrase such as `ptr noundef %buf` or `label %7,` is its last word without trailing
commas. A block label is written as `7:`, `%7`, `"7"` or `label %7`; its reference form is always
the name behind `%`.
-/

namespace InstrGraph.Text

/-- The last word of a phrase without the commas at its end; empty if the phrase has no word. -/
def lastToken (cs : List Char) : List Char :=
  match (words cs).getLast? with
  | some w => trimEndOf (· == ',') w
  | none => []

/-- The reference form of a block label. -/
def normalizeLabel (cs : List Char) : List Char :=
  let name := lastToken ((trimEndOf (· == ':') (trim cs)).filter (· ≠ '"'))
  match name with
  | '%' :: _ => name
  | _ => '%' :: name

/-- The reference form of a label begins with `%`. -/
theorem normalizeLabel_head (cs : List Char) : (normalizeLabel cs).head? = some '%' := by
  unfold normalizeLabel
  dsimp only
  split
  · rename_i h; rw [h]; rfl
  · rfl

end InstrGraph.Text

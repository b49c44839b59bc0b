import InstrGraph.Text.Hex
import Mathlib.Data.Nat.Basic
import Mathlib.Tactic.Common

/-!
# Digits are read back

What the digits of a number say, in base sixteen with a fixed width (`hexNumber?_hexDigits`) and in
base ten, where no superfluous zero stands in front (`head?_toDigits_ne_zero`).
-/

namespace InstrGraph.Text

/-! ### Base sixteen -/

/-- One more digit to the base sixteen. -/
theorem hexNumber?_concat (ds : List Char) (d : Char) :
    hexNumber? (ds ++ [d]) =
      (hexNumber? ds).bind fun n => (hexValue? d).map fun v => 16 * n + v := by
  simp only [hexNumber?, List.foldlM_append, List.foldlM_cons, List.foldlM_nil, bind_pure]
  rfl

/-- There are as many digits as are wanted. -/
@[simp] theorem length_hexDigits (width n : Nat) : (hexDigits width n).length = width := by
  induction width generalizing n with
  | zero => rfl
  | succ width ih => rw [hexDigits, List.length_append, ih, List.length_singleton]

/-- A number that fits into the width is what its digits stand for, also if they are written
another way. -/
theorem hexNumber?_map_hexDigits {f : Char → Char}
    (hf : ∀ k < 16, hexValue? (f (Nat.digitChar k)) = some k) {width n : Nat}
    (h : n < Nat.pow 16 width) : hexNumber? ((hexDigits width n).map f) = some n := by
  induction width generalizing n with
  | zero =>
    obtain rfl : n = 0 := by simpa using h
    rfl
  | succ width ih =>
    have hhigh : n / 16 < Nat.pow 16 width := (Nat.div_lt_iff_lt_mul (by decide)).mpr h
    rw [hexDigits, List.map_append, List.map_singleton, hexNumber?_concat, ih hhigh,
      hf (n % 16) (Nat.mod_lt n (by decide))]
    simp only [Option.bind_some, Option.map_some, Option.some.injEq]
    omega

/-- A number is read back from its digits to the base sixteen, if there are enough of them. -/
theorem hexNumber?_hexDigits {width n : Nat} (h : n < Nat.pow 16 width) :
    hexNumber? (hexDigits width n) = some n := by
  simpa using @hexNumber?_map_hexDigits id (by decide) width n h

/-- Digits to the base sixteen can be written in capitals. -/
theorem hexNumber?_toUpper {width n : Nat} (h : n < Nat.pow 16 width) :
    hexNumber? ((hexDigits width n).map Char.toUpper) = some n :=
  hexNumber?_map_hexDigits (by decide) h

/-! ### Base ten -/

/-- The digit of a positive number is not zero. -/
theorem digitChar_ne_zero {k : Nat} (h : k < 10) (hk : 0 < k) : Nat.digitChar k ≠ '0' := by
  revert k
  decide

/-- The digits of a positive number begin with another digit than zero. -/
theorem head?_toDigits_ne_zero {n : Nat} (h : 0 < n) :
    (Nat.toDigits 10 n).head? ≠ some '0' := by
  induction n using Nat.strongRecOn with
  | ind n ih =>
    rw [Nat.toDigits_eq_if (by decide)]
    split
    · rename_i hlt
      simpa using digitChar_ne_zero hlt h
    · rename_i hge
      have hpos : 0 < n / 10 := by omega
      have hhead := ih (n / 10) (by omega) hpos
      rw [List.head?_append]
      cases hhigh : (Nat.toDigits 10 (n / 10)).head? with
      | none => exact absurd (List.head?_eq_none_iff.mp hhigh) Nat.toDigits_ne_nil
      | some c => rwa [Option.some_or, ← hhigh]

/-- A number with more than one digit begins with another digit than zero. -/
theorem head?_toDigits_of_one_lt {n : Nat} (h : 1 < (Nat.toDigits 10 n).length) :
    (Nat.toDigits 10 n).head? ≠ some '0' := by
  refine head?_toDigits_ne_zero (Nat.pos_of_ne_zero ?_)
  rintro rfl
  simp at h

/-- A natural number as an integer is written with its digits. -/
theorem toList_toString_ofNat (n : Nat) : (toString (n : Int)).toList = Nat.toDigits 10 n :=
  Nat.toList_repr

/-- A negative integer is written with a minus sign in front of its digits. -/
theorem toList_toString_negSucc (n : Nat) :
    (toString (Int.negSucc n)).toList = '-' :: Nat.toDigits 10 (n + 1) := by
  rw [Int.toString_eq_repr, Int.repr, String.toList_append, Nat.toList_repr]
  rfl

/-- Reading more digits does not make a number smaller. -/
theorem le_ofDigitChars (cs : List Char) (n : Nat) : n ≤ Nat.ofDigitChars 10 cs n := by
  induction cs generalizing n with
  | nil => exact Nat.le_refl n
  | cons c cs ih =>
    have hstep : n ≤ 10 * n + (c.toNat - '0'.toNat) := by omega
    exact Nat.le_trans hstep (ih _)

end InstrGraph.Text

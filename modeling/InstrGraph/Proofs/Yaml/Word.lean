import InstrGraph.Proofs.Text.Numerals
import InstrGraph.Proofs.Yaml.Plain

/-!
# Numbers are read back

A number is written as its decimal digits, behind a minus sign if it is negative. These are a word,
so they stand in a text without quotes, and a reader takes them for the number (`signed?_toString`,
`unsigned?_toString`).
-/

namespace InstrGraph.Yaml

variable {n : Nat} {ds : List Char}

/-! ### Digits -/

/-- A digit is a character of names. -/
theorem isNameChar_of_isDigit {c : Char} (h : c.isDigit = true) : isNameChar c = true := by
  simp [isNameChar, Char.isAlphanum, h]

/-- A number is written with digits. -/
theorem isDigit_toDigits (n : Nat) : ∀ c ∈ Nat.toDigits 10 n, c.isDigit = true :=
  fun _ => Nat.isDigit_of_mem_toDigits (by decide) (by decide)

/-- A number is a word. -/
theorem isWord_toDigits (n : Nat) : IsWord (Nat.toDigits 10 n) where
  ne_nil := Nat.toDigits_ne_nil
  nameChar c hc := isNameChar_of_isDigit (isDigit_toDigits n c hc)
  last h := absurd (isDigit_toDigits n '-' (List.mem_of_getLast? h)) (by decide)

/-- The value of a digit is its distance from zero. -/
theorem hexValue?_of_isDigit {c : Char} (h : c.isDigit = true) :
    Text.hexValue? c = some (c.toNat - '0'.toNat) ∧ c.toNat - '0'.toNat < 10 := by
  have hc := Char.isDigit_iff_toNat.mp h
  have hrange : ('0' ≤ c && c ≤ '9') = true := by
    simpa [Char.isDigit, Char.le_def] using h
  refine ⟨by rw [Text.hexValue?, if_pos hrange], ?_⟩
  have hnine : '9'.toNat = '0'.toNat + 9 := rfl
  omega

/-- Digits of base ten stand for the number that is made of them. -/
theorem digits?_of_isDigit (hne : ds ≠ []) (hds : ∀ c ∈ ds, c.isDigit = true) :
    digits? 10 ds = some (Nat.ofDigitChars 10 ds 0) := by
  have hfold (n : Nat) : ds.foldlM (fun n d => (Text.hexValue? d).bind fun v =>
      if v < 10 then some (10 * n + v) else none) n = some (Nat.ofDigitChars 10 ds n) := by
    clear hne
    induction ds generalizing n with
    | nil => rfl
    | cons d ds ih =>
      obtain ⟨hd, hds⟩ := List.forall_mem_cons.mp hds
      obtain ⟨hvalue, hlt⟩ := hexValue?_of_isDigit hd
      rw [List.foldlM_cons, hvalue, Option.bind_some, if_pos hlt, Nat.ofDigitChars_cons]
      exact ih hds _
  rw [digits?, if_neg (by simpa using hne), hfold]

/-- A number is read back from its digits. -/
theorem digits?_toDigits (n : Nat) : digits? 10 (Nat.toDigits 10 n) = some n := by
  rw [digits?_of_isDigit Nat.toDigits_ne_nil (isDigit_toDigits n), Nat.ofDigitChars_ten_toDigits]

/-- No letter follows a zero at the front, nor do other digits. -/
theorem magnitude?_toDigits (n : Nat) : magnitude? (Nat.toDigits 10 n) = some n := by
  have hzero (d : Char) (ds : List Char) : Nat.toDigits 10 n ≠ '0' :: d :: ds := fun h =>
    Text.head?_toDigits_of_one_lt (n := n) (by simp [h]) (by rw [h]; rfl)
  rw [← digits?_toDigits n, magnitude?.eq_def]
  split
  all_goals first | rfl | exact absurd ‹_› (hzero _ _)

/-! ### Numbers -/

/-- An integer is a word. -/
theorem isWord_toString_int (n : Int) : IsWord (toString n).toList := by
  cases n with
  | ofNat n => exact Text.toList_toString_ofNat n ▸ isWord_toDigits n
  | negSucc n =>
    have hdigits := isWord_toDigits (n + 1)
    rw [Text.toList_toString_negSucc]
    exact
      { ne_nil := by simp
        nameChar := List.forall_mem_cons.mpr ⟨by decide, hdigits.nameChar⟩
        last := by
          rw [List.getLast?_cons_of_ne_nil hdigits.ne_nil]
          exact hdigits.last }

/-- An integer without a sign is read from its digits. -/
theorem int?_of_toDigits {s : String} (h : s.toList = Nat.toDigits 10 n) : int? s = some n := by
  have hsign {c : Char} {cs : List Char} (hcs : s.toList = c :: cs) : c.isDigit = true :=
    isDigit_toDigits n c (by rw [← h, hcs]; exact List.mem_cons_self)
  rw [int?]
  split
  · exact absurd (hsign ‹_›) (by decide)
  · exact absurd (hsign ‹_›) (by decide)
  · rw [h, magnitude?_toDigits]
    rfl

/-- An integer is read back from its text. -/
theorem int?_toString (n : Int) : int? (toString n) = some n := by
  cases n with
  | ofNat n => exact int?_of_toDigits (Text.toList_toString_ofNat n)
  | negSucc n =>
    rw [int?, Text.toList_toString_negSucc]
    simp only [magnitude?_toDigits]
    rfl

/-- An integer of 64 bits with sign is read back. -/
theorem signed?_toString {n : Int} (hmin : -0x8000000000000000 ≤ n)
    (hmax : n < 0x8000000000000000) : signed? (toString n) = some n := by
  rw [signed?, int?_toString]
  simp [hmin, hmax]

/-- An integer of 64 bits without sign is read back. -/
theorem unsigned?_toString (h : n < 0x10000000000000000) : unsigned? (toString n) = some n := by
  have hlist : (toString n).toList = Nat.toDigits 10 n := Nat.toList_repr
  have hminus : ((toString n).toList.head? == some '-') = false := by
    rw [beq_eq_false_iff_ne, hlist]
    exact fun hhead => absurd (isDigit_toDigits n '-' (List.mem_of_head? hhead)) (by decide)
  have hlt : ((n : Int) < 0x10000000000000000) := by omega
  rw [unsigned?, hminus, int?_of_toDigits hlist]
  simp [hlt]

end InstrGraph.Yaml

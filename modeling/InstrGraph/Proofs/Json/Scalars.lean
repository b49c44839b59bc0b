import InstrGraph.Json.Printer
import InstrGraph.Json.Reader
import InstrGraph.Proofs.Symbols.RenameTable
import InstrGraph.Proofs.Text.Numerals

/-!
# Strings and integers are read back from JSON

A string is read back character by character: every escape stands for the character that it was
written for (`readChars_escapeChar`), so any string comes back (`readChars_escaped`). The escape of
a control character needs a word about what follows, since a reader looks there for the second half
of a surrogate pair.

An integer that fits into 64 bits, with sign or without, comes back where the text does not go on
like a number (`readNumeral_int`).
-/

namespace InstrGraph.Json

/-! ### Strings -/

/-- Where an escape by code stands at the front of a text, its digits are digits. -/
def CodesRead (cs : List Char) : Prop :=
  ∀ a b c d rest, cs = '\\' :: 'u' :: a :: b :: c :: d :: rest → (unit? a b c d).isSome = true

/-- The code of a control character is read back. -/
theorem unit?_hexDigits {n : Nat} (h : n < 0x20) :
    ∃ a b c d, Text.hexDigits 4 n = [a, b, c, d] ∧ unit? a b c d = some n := by
  exact ⟨_, _, _, _, rfl, @Text.hexNumber?_hexDigits 4 n (Nat.lt_trans h (by decide))⟩

/-- The code of a control character stands for it, whatever other escapes follow. -/
theorem readChars_code {a b c d : Char} {n : Nat} (hn : n < 0x20) (h : unit? a b c d = some n)
    {tail : List Char} (ht : CodesRead tail) :
    readChars ('\\' :: 'u' :: a :: b :: c :: d :: tail) =
      (readChars tail).map (consChar (Char.ofNat n)) := by
  have hleading : isLeading n = false := by simp [isLeading]; omega
  have htrailing : isTrailing n = false := by simp [isTrailing]; omega
  by_cases hnext : ∃ a' b' c' d' rest, tail = '\\' :: 'u' :: a' :: b' :: c' :: d' :: rest
  · obtain ⟨a', b', c', d', rest, rfl⟩ := hnext
    obtain ⟨v, hv⟩ := Option.isSome_iff_exists.mp (ht a' b' c' d' rest rfl)
    rw [readChars]
    simp only [h, hv, hleading, htrailing, Bool.false_eq_true, if_false]
  · rw [readChars]
    · simp only [h, hleading, htrailing, Bool.or_self, Bool.false_eq_true, if_false]
    · exact fun a' b' c' d' rest heq => hnext ⟨a', b', c', d', rest, heq⟩

/-- A character that is not escaped stands for itself. -/
theorem readChars_cons {c : Char} (hquote : c ≠ '"') (hslash : c ≠ '\\') (hc : 0x20 ≤ c.toNat)
    (tail : List Char) : readChars (c :: tail) = (readChars tail).map (consChar c) := by
  rw [readChars]
  · rw [if_neg (by omega)]
  all_goals simp_all

/-- An escape by a letter stands for its character. -/
theorem readChars_escape {e c : Char} (hu : e ≠ 'u') (he : escape? e = some c) (tail : List Char) :
    readChars ('\\' :: e :: tail) = (readChars tail).map (consChar c) := by
  rw [readChars]
  · rw [he]
  all_goals simp_all

/-- An escaped character is read back. -/
theorem readChars_escapeChar (c : Char) {tail : List Char} (ht : CodesRead tail) :
    readChars (escapeChar c ++ tail) = (readChars tail).map (consChar c) := by
  unfold escapeChar
  split_ifs with h1 h2 h3 h4 h5 h6 h7 h8
  · rw [beq_iff_eq.mp h1]
    exact readChars_escape (by decide) rfl tail
  · rw [beq_iff_eq.mp h2]
    exact readChars_escape (by decide) rfl tail
  · rw [beq_iff_eq.mp h3]
    exact readChars_escape (by decide) rfl tail
  · rw [beq_iff_eq.mp h4]
    exact readChars_escape (by decide) rfl tail
  · rw [beq_iff_eq.mp h5]
    exact readChars_escape (by decide) rfl tail
  · rw [beq_iff_eq.mp h6]
    exact readChars_escape (by decide) rfl tail
  · rw [beq_iff_eq.mp h7]
    exact readChars_escape (by decide) rfl tail
  · obtain ⟨a, b, d, e, hdigits, hunit⟩ := unit?_hexDigits h8
    rw [hdigits]
    have hcode := readChars_code h8 hunit ht
    rwa [Char.ofNat_toNat] at hcode
  · exact readChars_cons (by simpa using h1) (by simpa using h2) (by omega) tail

/-- What follows an escaped character is such a text again. -/
theorem codesRead_escaped (s : List Char) (tail : List Char) :
    CodesRead (s.flatMap escapeChar ++ '"' :: tail) := by
  intro a b c d rest heq
  cases s with
  | nil => simp at heq
  | cons ch s =>
    rw [List.flatMap_cons, List.append_assoc, escapeChar] at heq
    split_ifs at heq with h1 h2 h3 h4 h5 h6 h7 h8
    · simp at heq
    · simp at heq
    · simp at heq
    · simp at heq
    · simp at heq
    · simp at heq
    · simp at heq
    · obtain ⟨a', b', d', e', hdigits, hunit⟩ := unit?_hexDigits h8
      rw [hdigits] at heq
      simp only [List.cons_append, List.nil_append, List.cons.injEq] at heq
      obtain ⟨-, -, rfl, rfl, rfl, rfl, -⟩ := heq
      rw [hunit]
      rfl
    · simp only [List.cons_append, List.cons.injEq] at heq
      exact absurd heq.1 (by simpa using h2)

/-- Every string is read back. -/
theorem readChars_escaped (s tail : List Char) :
    readChars (s.flatMap escapeChar ++ '"' :: tail) = some (some s, tail) := by
  induction s with
  | nil => rfl
  | cons c s ih =>
    rw [List.flatMap_cons, List.append_assoc, readChars_escapeChar c (codesRead_escaped s tail), ih]
    rfl

/-! ### Numbers -/

/-- The text does not go on like a number. -/
def Ends (cs : List Char) : Prop :=
  ∀ c ∈ cs.head?, isDigit c = false ∧ c ≠ '.' ∧ c ≠ 'e' ∧ c ≠ 'E'

/-- The decimal digits of a number are digits. -/
theorem isDigit_of_mem_toDigits {n : Nat} {c : Char} (h : c ∈ Nat.toDigits 10 n) :
    isDigit c = true := by
  rw [← toList_toString] at h
  exact isAsciiDigit_of_mem_toString h

/-- All digits of a number are collected as long as the number fits into a word. -/
theorem collect_eq {ds : List Char} {n : Nat} (h : Nat.ofDigitChars 10 ds n ≤ maxWord) :
    collect n ds = (Nat.ofDigitChars 10 ds n, []) := by
  induction ds generalizing n with
  | nil => rfl
  | cons d ds ih =>
    have hstep : 10 * n + (d.toNat - '0'.toNat) ≤ maxWord :=
      Nat.le_trans (Text.le_ofDigitChars ds _) h
    rw [collect]
    simp only [hstep, if_true]
    exact ih h

/-- Digits are taken up to where the number ends. -/
theorem takeWhile_digits {ds rest : List Char} (hd : ∀ c ∈ ds, isDigit c = true) (hr : Ends rest) :
    (ds ++ rest).takeWhile isDigit = ds ∧ (ds ++ rest).dropWhile isDigit = rest := by
  have hstop : rest.takeWhile isDigit = [] ∧ rest.dropWhile isDigit = rest := by
    cases rest with
    | nil => exact ⟨rfl, rfl⟩
    | cons c rest =>
      have hc := (hr c rfl).1
      exact ⟨List.takeWhile_cons_of_neg (by simp [hc]), List.dropWhile_cons_of_neg (by simp [hc])⟩
  rw [List.takeWhile_append_of_pos hd, List.dropWhile_append_of_pos hd, hstop.1, hstop.2,
    List.append_nil]
  exact ⟨rfl, rfl⟩

/-- A numeral behind its sign. -/
def readUnsigned (negative : Bool) (cs : List Char) : Option (Numeral × List Char) := do
  let whole := cs.takeWhile isDigit
  let rest := cs.dropWhile isDigit
  if whole.isEmpty || (whole.length > 1 && whole.head? == some '0') then none
  else
    let (fraction, rest) ← readFraction rest
    let (exponent, rest) ← readExponent rest
    return (⟨negative, whole, fraction, exponent⟩, rest)

/-- A minus sign makes a numeral negative. -/
theorem readNumeral_minus (cs : List Char) : readNumeral ('-' :: cs) = readUnsigned true cs := rfl

/-- A numeral without a minus sign is not negative. -/
theorem readNumeral_of_head? {cs : List Char} (h : cs.head? ≠ some '-') :
    readNumeral cs = readUnsigned false cs := by
  cases cs with
  | nil => rfl
  | cons c cs =>
    unfold readNumeral
    split
    · rename_i heq
      split at heq
      · rename_i hcs
        rw [(List.cons.inj hcs).1] at h
        exact absurd rfl h
      · obtain ⟨rfl, rfl⟩ := Prod.mk.inj heq
        rfl

/-- Digits are read as a numeral without fraction or exponent. -/
theorem readUnsigned_toDigits (negative : Bool) (n : Nat) {rest : List Char} (hr : Ends rest) :
    readUnsigned negative (Nat.toDigits 10 n ++ rest) =
      some (⟨negative, Nat.toDigits 10 n, none, none⟩, rest) := by
  obtain ⟨htake, hdrop⟩ := takeWhile_digits (fun c hc => isDigit_of_mem_toDigits (n := n) hc) hr
  have hwhole : ((Nat.toDigits 10 n).isEmpty || (decide ((Nat.toDigits 10 n).length > 1) &&
      (Nat.toDigits 10 n).head? == some '0')) = false := by
    rw [Bool.or_eq_false_iff, Bool.and_eq_false_imp, List.isEmpty_eq_false_iff]
    refine ⟨Nat.toDigits_ne_nil, fun hlength => ?_⟩
    simpa using Text.head?_toDigits_of_one_lt (of_decide_eq_true hlength)
  have hfraction : readFraction rest = some (none, rest) := by
    unfold readFraction
    split
    · exact absurd rfl (hr _ rfl).2.1
    · rfl
  have hexponent : readExponent rest = some (none, rest) := by
    cases rest with
    | nil => rfl
    | cons c rest =>
      obtain ⟨-, -, he, hE⟩ := hr c rfl
      simp [readExponent, he, hE]
  simp only [readUnsigned, htake, hdrop, hwhole, hfraction, hexponent, Bool.false_eq_true, if_false,
    Option.bind_eq_bind, Option.bind_some, Option.pure_def]

/-- Integers of 64 bits, with sign or without. -/
def InRange (n : Int) : Prop := -0x8000000000000000 ≤ n ∧ n ≤ 0xFFFFFFFFFFFFFFFF

instance (n : Int) : Decidable (InRange n) := inferInstanceAs (Decidable (_ ∧ _))

/-- An integer is read back where the text does not go on like a number. -/
theorem readNumeral_int {n : Int} (hn : InRange n) {rest : List Char} (hr : Ends rest) :
    (readNumeral ((toString n).toList ++ rest)).map (fun r => (r.1.toJson, r.2)) =
      some (.int n, rest) := by
  have hcollect (k : Nat) (hk : k ≤ maxWord) : collect 0 (Nat.toDigits 10 k) = (k, []) := by
    rw [collect_eq (by rwa [Nat.ofDigitChars_ten_toDigits]), Nat.ofDigitChars_ten_toDigits]
  cases n with
  | ofNat k =>
    have hhead : (Nat.toDigits 10 k ++ rest).head? ≠ some '-' := by
      cases hds : Nat.toDigits 10 k with
      | nil => exact absurd hds Nat.toDigits_ne_nil
      | cons d ds =>
        have hd : isDigit d = true := isDigit_of_mem_toDigits (hds ▸ List.mem_cons_self)
        rintro heq
        obtain rfl : d = '-' := by simpa using heq
        exact absurd hd (by decide)
    rw [Int.ofNat_eq_natCast, Text.toList_toString_ofNat, readNumeral_of_head? hhead,
      readUnsigned_toDigits _ _ hr, Option.map_some, Numeral.toJson,
      hcollect k (Int.ofNat_le.mp hn.2)]
    rfl
  | negSucc k =>
    have hk : k + 1 ≤ 0x8000000000000000 := by have := hn.1; omega
    rw [Text.toList_toString_negSucc, List.cons_append, readNumeral_minus,
      readUnsigned_toDigits _ _ hr, Option.map_some, Numeral.toJson,
      hcollect (k + 1) (by simp only [maxWord]; omega)]
    simp only [Option.isNone_none, List.isEmpty_nil, Bool.and_self, Bool.not_true, Bool.and_false,
      Bool.false_eq_true, if_false]
    rw [if_pos (by simp; omega)]
    rfl

end InstrGraph.Json

import InstrGraph.Proofs.Text.Pieces

/-!
# How the classes of characters lie to each other

Blanks are no word characters, digits are, and neither is a sigil. The classes are tables of code
points, so these facts are facts about tables: two tables are apart if all their ranges are
(`Ranges.Apart`), and one lies in another if every range lies in one of it (`Ranges.Within`).
-/

namespace InstrGraph.Text

namespace Ranges

/-- No range of one table meets a range of the other. -/
def Apart (rs ss : Ranges) : Prop := ∀ r ∈ rs, ∀ s ∈ ss, r.2 < s.1 ∨ s.2 < r.1

/-- Every range of one table lies in a range of the other. -/
def Within (rs ss : Ranges) : Prop := ∀ r ∈ rs, ∃ s ∈ ss, s.1 ≤ r.1 ∧ r.2 ≤ s.2

instance (rs ss : Ranges) : Decidable (Apart rs ss) :=
  decidable_of_iff (rs.all (fun r => ss.all fun s => r.2.blt s.1 || s.2.blt r.1) = true)
    (by simp [Apart, Nat.blt_eq])

instance (rs ss : Ranges) : Decidable (Within rs ss) :=
  decidable_of_iff (rs.all (fun r => ss.any fun s => s.1.ble r.1 && r.2.ble s.2) = true)
    (by simp [Within])

/-- A character in one table is not in another one that is apart from it. -/
theorem Apart.contains_eq_false {rs ss : Ranges} (h : Apart rs ss) {c : Char}
    (hc : rs.contains c = true) : ss.contains c = false := by
  cases hs : ss.contains c with
  | false => rfl
  | true =>
    obtain ⟨r, hr, hr1, hr2⟩ := contains_iff.mp hc
    obtain ⟨s, hs, hs1, hs2⟩ := contains_iff.mp hs
    have := h r hr s hs
    omega

/-- A character in one table is in another one that it lies within. -/
theorem Within.contains {rs ss : Ranges} (h : Within rs ss) {c : Char}
    (hc : rs.contains c = true) : ss.contains c = true := by
  obtain ⟨r, hr, hr1, hr2⟩ := contains_iff.mp hc
  obtain ⟨s, hs, hs1, hs2⟩ := h r hr
  exact contains_iff.mpr ⟨s, hs, by omega, by omega⟩

end Ranges

/-- The ASCII word characters as a table. -/
def asciiWordRanges : Ranges := [(0x30, 0x39), (0x41, 0x5A), (0x5F, 0x5F), (0x61, 0x7A)]

/-- The letters, digits and underscores of ASCII are in their table. -/
theorem contains_of_isAsciiWord {c : Char} (h : isAsciiWord c = true) :
    asciiWordRanges.contains c = true := by
  have hle (a b : Char) (hab : a ≤ b) : a.toNat ≤ b.toNat := hab
  simp only [isAsciiWord, isAsciiDigit, Bool.or_eq_true, Bool.and_eq_true, decide_eq_true_eq,
    beq_iff_eq] at h
  rw [Ranges.contains_iff]
  rcases h with ((h | h) | h) | rfl
  · exact ⟨(0x61, 0x7A), by decide, hle _ _ h.1, hle _ _ h.2⟩
  · exact ⟨(0x41, 0x5A), by decide, hle _ _ h.1, hle _ _ h.2⟩
  · exact ⟨(0x30, 0x39), by decide, hle _ _ h.1, hle _ _ h.2⟩
  · exact ⟨(0x5F, 0x5F), by decide, by decide⟩

/-- No blank is an ASCII word character. -/
theorem blank_apart_asciiWord : Ranges.Apart blankRanges asciiWordRanges := by decide

/-- No blank is a word character. -/
theorem blank_apart_word : Ranges.Apart blankRanges wordRanges := by decide +kernel

/-- Every digit is a word character. -/
theorem digit_within_word : Ranges.Within digitRanges wordRanges := by decide +kernel

/-- No blank is a word character. -/
theorem isWord_of_isBlank {c : Char} (h : isBlank c = true) : isWord c = false := by
  unfold isWord
  split
  · cases hw : isAsciiWord c with
    | false => rfl
    | true =>
      have := blank_apart_asciiWord.contains_eq_false h
      rw [contains_of_isAsciiWord hw] at this
      exact this
  · exact blank_apart_word.contains_eq_false h

/-- Every digit is a word character. -/
theorem isWord_of_isDigit {c : Char} (h : isDigit c = true) : isWord c = true := by
  unfold isDigit at h
  split at h
  · exact isWord_of_isAsciiDigit h
  · rename_i hc
    rw [isWord, if_neg hc]
    exact digit_within_word.contains h

/-- No word character is a blank. -/
theorem isBlank_of_isWord {c : Char} (h : isWord c = true) : isBlank c = false := by
  cases hb : isBlank c with
  | false => rfl
  | true => rw [isWord_of_isBlank hb] at h; exact h.symm

/-- No character of names is a blank. -/
theorem isBlank_of_isNameChar {c : Char} (h : isNameChar c = true) : isBlank c = false := by
  simp only [isNameChar, Bool.or_eq_true, beq_iff_eq] at h
  rcases h with (((h | rfl) | rfl) | rfl) | rfl
  · exact isBlank_of_isWord h
  all_goals decide

/-- No blank is a character of names. -/
theorem isNameChar_of_isBlank {c : Char} (h : isBlank c = true) : isNameChar c = false := by
  cases hn : isNameChar c with
  | false => rfl
  | true => rw [isBlank_of_isNameChar hn] at h; exact h.symm

/-- No sigil is a blank. -/
theorem isBlank_of_isSigil {c : Char} (h : isSigil c = true) : isBlank c = false := by
  simp only [isSigil, Bool.or_eq_true, beq_iff_eq] at h
  rcases h with rfl | rfl <;> decide

/-- No blank is a sigil. -/
theorem isSigil_of_isBlank {c : Char} (h : isBlank c = true) : isSigil c = false := by
  cases hs : isSigil c with
  | false => rfl
  | true => rw [isBlank_of_isSigil hs] at h; exact h.symm

/-- Every digit is a character of names. -/
theorem isNameChar_of_isDigit {c : Char} (h : isDigit c = true) : isNameChar c = true := by
  simp [isNameChar, isWord_of_isDigit h]

/-- No digit is a sigil. -/
theorem isSigil_of_isDigit {c : Char} (h : isDigit c = true) : isSigil c = false :=
  not_isSigil_of_isNameChar (isNameChar_of_isDigit h)

/-- A property that the sigils and the name characters have holds of every character of an
identifier. -/
theorem forall_mem_identifier {t : List Char} (ht : isIdentifier t = true) {p : Char → Prop}
    (hs : ∀ c, isSigil c = true → p c) (hn : ∀ c, isNameChar c = true → p c) : ∀ c ∈ t, p c := by
  cases t with
  | nil => simp
  | cons s n =>
    obtain ⟨h1, -, h2⟩ := isIdentifier_cons.mp ht
    intro c hc
    rcases List.mem_cons.mp hc with rfl | hc
    · exact hs c h1
    · exact hn c (h2 c hc)

/-- No identifier has blanks. -/
theorem isBlank_of_mem_identifier {t : List Char} (ht : isIdentifier t = true) :
    ∀ c ∈ t, isBlank c = false :=
  forall_mem_identifier ht (fun _ => isBlank_of_isSigil) (fun _ => isBlank_of_isNameChar)

end InstrGraph.Text

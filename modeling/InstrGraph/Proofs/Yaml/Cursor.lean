import InstrGraph.Yaml.Writer
import Mathlib.Data.List.TakeWhile

/-!
# Going over a written text

What a writer leaves in a text is printable, which makes its blanks spaces and its line breaks ones
that are read as they are. A cursor goes over the characters of a class up to one that is none
(`Cursor.span_append`), and over a gap to the text behind it (`readGap_blanks`, `readGap_breaks`).
-/

namespace InstrGraph.Yaml

variable {c : Char} {cs tail rest : List Char} {i l k n : Nat}

/-! ### Classes of characters -/

/-- These characters are the line breaks. -/
theorem isBreak_iff :
    isBreak c = true ↔ c = '\n' ∨ c = '\r' ∨ c = '\x85' ∨ c = '\u2028' ∨ c = '\u2029' := by
  simp only [isBreak, Bool.or_eq_true, beq_iff_eq, or_assoc]

/-- These characters are the blanks. -/
theorem isBlank_iff : isBlank c = true ↔ c = ' ' ∨ c = '\t' := by
  simp only [isBlank, Bool.or_eq_true, beq_iff_eq]

/-- A line break that a writer leaves in a text is read as it is. -/
theorem breakText_of_isPrintable (h : isBreak c = true) (hp : isPrintable c = true) :
    c ≠ '\r' ∧ breakText c = c := by
  rcases isBreak_iff.mp h with rfl | rfl | rfl | rfl | rfl
  · decide
  · exact absurd hp (by decide)
  · exact absurd hp (by decide)
  · decide
  · decide

/-- A blank that a writer leaves in a text is a space. -/
theorem eq_space_of_isPrintable (h : isBlank c = true) (hp : isPrintable c = true) : c = ' ' := by
  rcases isBlank_iff.mp h with rfl | rfl
  · rfl
  · exact absurd hp (by decide)

/-- Among the characters that can be printed, the only blank is the space. -/
theorem isBlank_eq_isSpace (hp : isPrintable c = true) : isBlank c = isSpace c := by
  rw [Bool.eq_iff_iff]
  constructor
  · intro h
    rw [eq_space_of_isPrintable h hp]
    rfl
  · intro h
    rw [beq_iff_eq.mp h]
    rfl

/-- No line break is a blank. -/
theorem not_isBlank_of_isBreak (h : isBreak c = true) : isBlank c = false := by
  rcases isBreak_iff.mp h with rfl | rfl | rfl | rfl | rfl <;> rfl

/-- What can be printed is allowed in a document. -/
theorem isAllowed_of_isPrintable (h : isPrintable c = true) : isAllowed c = true := by
  simp only [isPrintable, Bool.or_eq_true, Bool.and_eq_true, beq_iff_eq, decide_eq_true_eq] at h
  simp only [isAllowed, Bool.or_eq_true, Bool.and_eq_true, beq_iff_eq, decide_eq_true_eq]
  rcases h with ((rfl | h) | ⟨h, -⟩) | h
  · simp
  · simp [h]
  · simp [h]
  · simp [h]

/-- Characters of names can be printed. -/
theorem isPrintable_of_isNameChar (h : isNameChar c = true) : isPrintable c = true := by
  have hn : 0x20 ≤ c.toNat ∧ c.toNat ≤ 0x7E := by
    delta isNameChar Char.isAlphanum Char.isAlpha Char.isUpper Char.isLower Char.isDigit at h
    simp only [Bool.or_eq_true, Bool.and_eq_true, beq_iff_eq, decide_eq_true_eq,
      UInt32.le_iff_toNat_le, ge_iff_le] at h
    change ((((65 ≤ c.toNat ∧ c.toNat ≤ 90) ∨ (97 ≤ c.toNat ∧ c.toNat ≤ 122)) ∨
      (48 ≤ c.toNat ∧ c.toNat ≤ 57)) ∨ c = '_') ∨ c = '-' at h
    rcases h with (((h | h) | h) | rfl) | rfl
    · omega
    · omega
    · omega
    · decide
    · decide
  simp [isPrintable, hn]

/-- A character of a name is none of those that a layout is made of. -/
theorem ne_of_isNameChar (h : isNameChar c = true) {d : Char} (hd : isNameChar d = false) :
    c ≠ d := by
  rintro rfl
  rw [h] at hd
  exact Bool.noConfusion hd

/-- No character of names is a line break. -/
theorem not_isBreak_of_isNameChar (h : isNameChar c = true) : isBreak c = false := by
  rw [Bool.eq_false_iff]
  intro hb
  rcases isBreak_iff.mp hb with rfl | rfl | rfl | rfl | rfl <;> exact absurd h (by decide)

/-- No character of names is a blank. -/
theorem not_isBlank_of_isNameChar (h : isNameChar c = true) : isBlank c = false := by
  rw [Bool.eq_false_iff]
  intro hb
  rcases isBlank_iff.mp hb with rfl | rfl <;> exact absurd h (by decide)

/-- Spaces are blanks. -/
theorem isBlank_of_mem_spaces (h : c ∈ spaces n) : isBlank c = true := by
  rw [(List.mem_replicate.mp h).2]
  rfl

/-- A text is a run of characters of a class, and what follows it. -/
theorem exists_span (p : Char → Bool) (cs : List Char) :
    ∃ run more, cs = run ++ more ∧ run = cs.takeWhile p ∧ (∀ d ∈ run, p d = true) ∧
      ∀ d ∈ more.head?, p d = false := by
  refine ⟨cs.takeWhile p, cs.dropWhile p, List.takeWhile_append_dropWhile.symm, rfl,
    fun d => List.mem_takeWhile_imp, fun d hd => ?_⟩
  have := List.head?_dropWhile_not p cs
  rw [Option.mem_def.mp hd] at this
  simpa using this

/-- A text that begins with a character of a class begins with a run of them. -/
theorem exists_run {p : Char → Bool} (hc : p c = true) (rest : List Char) :
    ∃ run more, c :: rest = run ++ more ∧ run = (c :: rest).takeWhile p ∧ run ≠ [] ∧
      (∀ d ∈ run, p d = true) ∧ ∀ d ∈ more.head?, p d = false := by
  obtain ⟨run, more, heq, hrun, hall, hmore⟩ := exists_span p (c :: rest)
  refine ⟨run, more, heq, hrun, ?_, hall, hmore⟩
  rw [hrun, List.takeWhile_cons_of_pos hc]
  simp

/-! ### Cursors -/

namespace Cursor

/-- Going past a text counts its characters. -/
theorem past_append (cs tail : List Char) (i l k : Nat) :
    (⟨cs ++ tail, i, l, k⟩ : Cursor).past cs.length =
      ⟨tail, i + cs.length, l, k + cs.length⟩ := by
  simp [past]

/-- Going past a character counts one. -/
theorem past_cons (c : Char) (tail : List Char) (i l k : Nat) :
    (⟨c :: tail, i, l, k⟩ : Cursor).past 1 = ⟨tail, i + 1, l, k + 1⟩ := rfl

/-- The characters of a class end before one that is none. -/
theorem span_append {p : Char → Bool} (hcs : ∀ c ∈ cs, p c = true)
    (htail : ∀ c ∈ tail.head?, p c = false) (i l k : Nat) :
    (⟨cs ++ tail, i, l, k⟩ : Cursor).span p =
      (cs, ⟨tail, i + cs.length, l, k + cs.length⟩) := by
  have htake : (cs ++ tail).takeWhile p = cs := by
    rw [List.takeWhile_append_of_pos hcs]
    cases tail with
    | nil => simp
    | cons d tail => simp [htail d rfl]
  simp only [span, skip, htake, past_append]

/-- Nothing is taken from a text that begins with something else. -/
theorem span_eq_nil {p : Char → Bool} (hrest : ∀ c ∈ rest.head?, p c = false) (i l k : Nat) :
    (⟨rest, i, l, k⟩ : Cursor).span p = ([], ⟨rest, i, l, k⟩) :=
  @span_append [] rest p (by simp) hrest i l k

/-- A line break takes the cursor to the beginning of the next line. -/
theorem lineBreak?_cons (hb : isBreak c = true) (hp : isPrintable c = true) :
    (⟨c :: tail, i, l, k⟩ : Cursor).lineBreak? = some (c, ⟨tail, i + 1, l + 1, 0⟩) := by
  obtain ⟨hr, htext⟩ := breakText_of_isPrintable hb hp
  rw [lineBreak?]
  split
  · rename_i heq
    exact absurd (List.cons.inj heq).1 hr
  · rename_i heq
    obtain ⟨rfl, rfl⟩ := List.cons.inj heq
    rw [if_pos hb, htext]
  · rename_i heq
    exact absurd heq (by simp)

/-- There is no line break where the text begins with something else. -/
theorem lineBreak?_eq_none (h : ∀ c ∈ rest.head?, isBreak c = false) :
    (⟨rest, i, l, k⟩ : Cursor).lineBreak? = none := by
  rw [lineBreak?]
  split
  · rename_i heq
    change rest = _ at heq
    exact absurd (h '\r' (heq ▸ rfl)) (by decide)
  · rename_i ch more _ heq
    change rest = _ at heq
    have hch : isBreak ch = false := h ch (heq ▸ rfl)
    rw [if_neg (by simp [hch])]
  · rfl

/-- Right of the first column no marker stands. -/
theorem atMarker_of_column (hk : 0 < k) : (⟨rest, i, l, k⟩ : Cursor).atMarker = false := by
  have hne : (k == 0) = false := by
    rw [beq_eq_false_iff_ne]
    omega
  simp [atMarker, hne]

end Cursor

/-! ### Gaps -/

/-- No line breaks are read where the text begins with something else. -/
theorem readBreaks_eq_nil (h : ∀ c ∈ rest.head?, isBreak c = false) (indent fuel : Nat) :
    readBreaks indent fuel ⟨rest, i, l, k⟩ = some ([], ⟨rest, i, l, k⟩) := by
  cases fuel with
  | zero => rfl
  | succ fuel => rw [readBreaks, Cursor.lineBreak?_eq_none h]

/-- Line breaks up to a line that is indented by spaces. -/
theorem readBreaks_append {indent fuel : Nat} {breaks : List Char} (hne : breaks ≠ [])
    (hbreaks : ∀ b ∈ breaks, isBreak b = true ∧ isPrintable b = true)
    (htail : ∀ c ∈ tail.head?, isBlank c = false ∧ isBreak c = false)
    (hfuel : breaks.length ≤ fuel) :
    readBreaks indent fuel ⟨breaks ++ (spaces n ++ tail), i, l, k⟩ =
      some (breaks, ⟨tail, i + breaks.length + n, l + breaks.length, n⟩) := by
  induction breaks generalizing fuel i l k with
  | nil => exact absurd rfl hne
  | cons b breaks ih =>
    obtain ⟨⟨hb, hp⟩, hbreaks⟩ := List.forall_mem_cons.mp hbreaks
    cases fuel with
    | zero => simp at hfuel
    | succ fuel =>
      rw [List.length_cons, Nat.add_le_add_iff_right] at hfuel
      rw [List.cons_append, readBreaks, Cursor.lineBreak?_cons hb hp]
      cases breaks with
      | nil =>
        have hspan := @Cursor.span_append (spaces n) tail isBlank (fun c => isBlank_of_mem_spaces)
          (fun c hc => (htail c hc).1) (i + 1) (l + 1) 0
        have htab : ((spaces n).take indent).contains '\t' = false := by
          rw [spaces, List.take_replicate, List.contains_eq_mem, decide_eq_false_iff_not]
          intro h
          exact absurd (List.mem_replicate.mp h).2 (by decide)
        simp only [List.nil_append, hspan, htab, Bool.false_eq_true, if_false,
          readBreaks_eq_nil fun c hc => (htail c hc).2]
        simp [spaces]
      | cons b' breaks =>
        have hspan := @Cursor.span_eq_nil (b' :: breaks ++ (spaces n ++ tail)) isBlank
          (by simpa using not_isBlank_of_isBreak (hbreaks b' List.mem_cons_self).1)
          (i + 1) (l + 1) 0
        simp only [hspan, List.take_nil, List.contains_nil, Bool.false_eq_true, if_false,
          ih (by simp) hbreaks hfuel]
        simp only [Option.map_some, List.length_cons]
        congr 3 <;> omega

/-- Blanks within a line. -/
theorem readGap_blanks {blanks : List Char} (hblanks : ∀ c ∈ blanks, isBlank c = true)
    (htail : ∀ c ∈ tail.head?, isBlank c = false ∧ isBreak c = false) (indent fuel : Nat) :
    readGap indent fuel ⟨blanks ++ tail, i, l, k⟩ =
      some (⟨blanks, []⟩, ⟨tail, i + blanks.length, l, k + blanks.length⟩) := by
  rw [readGap, Cursor.span_append hblanks fun c hc => (htail c hc).1]
  simp only [readBreaks_eq_nil fun c hc => (htail c hc).2, Option.map_some]

/-- Line breaks, and the indentation of the line behind them. -/
theorem readGap_breaks {indent fuel : Nat} {breaks : List Char} (hne : breaks ≠ [])
    (hbreaks : ∀ b ∈ breaks, isBreak b = true ∧ isPrintable b = true)
    (htail : ∀ c ∈ tail.head?, isBlank c = false ∧ isBreak c = false)
    (hfuel : breaks.length ≤ fuel) :
    readGap indent fuel ⟨breaks ++ (spaces n ++ tail), i, l, k⟩ =
      some (⟨[], breaks⟩, ⟨tail, i + breaks.length + n, l + breaks.length, n⟩) := by
  have hhead : ∀ c ∈ (breaks ++ (spaces n ++ tail)).head?, isBlank c = false := by
    cases breaks with
    | nil => exact absurd rfl hne
    | cons b breaks => simpa using not_isBlank_of_isBreak (hbreaks b List.mem_cons_self).1
  rw [readGap, Cursor.span_eq_nil hhead]
  simp only [readBreaks_append hne hbreaks htail hfuel, Option.map_some]

/-! ### Lines -/

/-- A text is a line with this indentation that does not begin with a sign of the layout, and what
follows it; or the text is over. -/
structure IsLine (tail : List Char) (k : Nat) (rest : List Char) : Prop where
  eq : tail = spaces k ++ rest
  head : ∀ c ∈ rest.head?, isNameChar c = true

namespace IsLine

/-- A line does not begin with a gap. -/
theorem noGap (h : IsLine tail k rest) :
    ∀ c ∈ rest.head?, isBlank c = false ∧ isBreak c = false := fun c hc =>
  ⟨not_isBlank_of_isNameChar (h.head c hc), not_isBreak_of_isNameChar (h.head c hc)⟩

/-- The way from the end of a line to the beginning of the next one. -/
theorem readGap (h : IsLine tail n rest) (indent : Nat) {fuel : Nat} (hfuel : 0 < fuel) :
    readGap indent fuel ⟨'\n' :: tail, i, l, k⟩ =
      some (⟨[], ['\n']⟩, ⟨rest, i + 1 + n, l + 1, n⟩) := by
  rw [h.eq]
  exact @readGap_breaks rest i l k n indent fuel ['\n'] (by simp) (by simp; decide) h.noGap hfuel

end IsLine

end InstrGraph.Yaml

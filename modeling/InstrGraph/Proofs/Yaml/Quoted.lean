import InstrGraph.Proofs.Text.Numerals
import InstrGraph.Proofs.Yaml.Cursor

/-!
# Quoted scalars are read back

Between quotes a reader takes runs of blanks and of line breaks at once, and everything else
character by character. So a written text is taken apart in the same way: a run of spaces stands for
itself, a run of line breaks has the indentation of the next line behind it, and every other
character is itself, a doubled quote or an escape (`readsQuoted_singleQuotedChars`,
`readsQuoted_escaped`).
-/

namespace InstrGraph.Yaml

variable {c : Char} {cs tail rest : List Char} {i l k n : Nat} {double : Bool}

/-- A reader of a quoted scalar gives a text here, and goes on at another. -/
def ReadsQuoted (double : Bool) (fuel : Nat) (place : Cursor) (text rest : List Char) : Prop :=
  ∃ place', readQuoted double fuel place = some (text, place') ∧ place'.rest = rest

/-- The quote of a kind of quoted scalars. -/
def quoteSign (double : Bool) : Char := if double then '"' else '\''

/-! ### Steps -/

namespace ReadsQuoted

variable {fuel : Nat} {text : List Char}

/-- A run of blanks stands for itself. -/
theorem blanks {run : List Char} (hne : run ≠ []) (hrun : ∀ c ∈ run, isBlank c = true)
    (htail : ∀ c ∈ tail.head?, isBlank c = false ∧ isBreak c = false) (hk : 0 < k)
    (h : ReadsQuoted double fuel ⟨tail, i + run.length, l, k + run.length⟩ text rest) :
    ReadsQuoted double (fuel + 1) ⟨run ++ tail, i, l, k⟩ (run ++ text) rest := by
  obtain ⟨place, hread, hrest⟩ := h
  refine ⟨place, ?_, hrest⟩
  have hgap := readGap_blanks hrun htail 0 (fuel + 1) (i := i) (l := l) (k := k)
  have hmarker : (⟨tail, i + run.length, l, k + run.length⟩ : Cursor).atMarker = false :=
    Cursor.atMarker_of_column (by omega)
  obtain ⟨b, more, rfl⟩ := List.exists_cons_of_ne_nil hne
  have hb : isBlank b = true := hrun b List.mem_cons_self
  rw [List.cons_append] at hgap ⊢
  rw [readQuoted]
  simp only [hb, Bool.true_or, if_true, hgap, hmarker, Bool.false_eq_true, if_false, hread]
  rfl

/-- Line breaks stand for themselves; the indentation behind them does not count. -/
theorem breaks {run : List Char} (hne : run ≠ [])
    (hrun : ∀ b ∈ run, isBreak b = true ∧ isPrintable b = true) (hfeed : '\n' ∉ run)
    (htail : ∀ c ∈ tail.head?, isBlank c = false ∧ isBreak c = false) (hn : 0 < n)
    (hfuel : run.length ≤ fuel)
    (h : ReadsQuoted double fuel ⟨tail, i + run.length + n, l + run.length, n⟩ text rest) :
    ReadsQuoted double (fuel + 1) ⟨run ++ (spaces n ++ tail), i, l, k⟩ (run ++ text) rest := by
  obtain ⟨place, hread, hrest⟩ := h
  refine ⟨place, ?_, hrest⟩
  have hgap := @readGap_breaks tail i l k n 0 (fuel + 1) run hne hrun htail
    (Nat.le_succ_of_le hfuel)
  have hmarker : (⟨tail, i + run.length + n, l + run.length, n⟩ : Cursor).atMarker = false :=
    Cursor.atMarker_of_column hn
  obtain ⟨b, more, rfl⟩ := List.exists_cons_of_ne_nil hne
  have hb : isBreak b = true := (hrun b List.mem_cons_self).1
  have htext : (⟨[], b :: more⟩ : Gap).text = b :: more := by
    have hne : b ≠ '\n' := fun heq => hfeed (heq ▸ List.mem_cons_self)
    simp [Gap.text, hne]
  rw [List.cons_append] at hgap ⊢
  rw [readQuoted]
  simp only [hb, Bool.or_true, if_true, hgap, hmarker, Bool.false_eq_true, if_false, hread, htext]
  rfl

/-- A character without any other meaning. -/
theorem char (hblank : isBlank c = false) (hbreak : isBreak c = false)
    (hquote : c ≠ quoteSign double) (hslash : double = true → c ≠ '\\')
    (h : ReadsQuoted double fuel ⟨tail, i + 1, l, k + 1⟩ text rest) :
    ReadsQuoted double (fuel + 1) ⟨c :: tail, i, l, k⟩ (c :: text) rest := by
  obtain ⟨place, hread, hrest⟩ := h
  refine ⟨place, ?_, hrest⟩
  rw [readQuoted]
  cases double with
  | false =>
    have hc : (c == '\'') = false := beq_false_of_ne hquote
    simp only [hblank, hbreak, hc, Bool.or_self, Bool.not_false, Bool.true_and, Bool.false_and,
      Bool.false_eq_true, if_false, Cursor.past_cons, hread]
    rfl
  | true =>
    have hc : (c == '"') = false := beq_false_of_ne hquote
    have hs : (c == '\\') = false := beq_false_of_ne (hslash rfl)
    simp only [hblank, hbreak, hc, hs, Bool.or_self, Bool.not_true, Bool.true_and, Bool.false_and,
      Bool.false_eq_true, if_false, Cursor.past_cons, hread]
    rfl

/-- The closing quote. -/
theorem close (htail : tail.head? ≠ some '\'') :
    ReadsQuoted double (fuel + 1) ⟨quoteSign double :: tail, i, l, k⟩ [] tail := by
  refine ⟨⟨tail, i + 1, l, k + 1⟩, ?_, rfl⟩
  cases double with
  | false =>
    have hc : (tail.head? == some '\'') = false := beq_false_of_ne htail
    simp [quoteSign, readQuoted, isBlank, isBreak, hc, Cursor.past_cons]
  | true => simp [quoteSign, readQuoted, isBlank, isBreak, Cursor.past_cons]

/-- Two quotes stand for one. -/
theorem twoQuotes (h : ReadsQuoted false fuel ⟨tail, i + 2, l, k + 2⟩ text rest) :
    ReadsQuoted false (fuel + 1) ⟨'\'' :: '\'' :: tail, i, l, k⟩ ('\'' :: text) rest := by
  obtain ⟨place, hread, hrest⟩ := h
  refine ⟨place, ?_, hrest⟩
  have hpast : (⟨'\'' :: '\'' :: tail, i, l, k⟩ : Cursor).past 2 = ⟨tail, i + 2, l, k + 2⟩ := rfl
  rw [readQuoted]
  simp [isBlank, isBreak, hpast, hread]

/-- An escape stands for its character. -/
theorem escape {code : List Char} (hcode : ∀ c ∈ code.head?, isBreak c = false) (hne : code ≠ [])
    (hescape : readEscape (code ++ tail) = some (c, code.length))
    (h : ReadsQuoted true fuel ⟨tail, i + (code.length + 1), l, k + (code.length + 1)⟩ text rest) :
    ReadsQuoted true (fuel + 1) ⟨'\\' :: (code ++ tail), i, l, k⟩ (c :: text) rest := by
  obtain ⟨place, hread, hrest⟩ := h
  refine ⟨place, ?_, hrest⟩
  have hline : (⟨code ++ tail, i + 1, l, k + 1⟩ : Cursor).lineBreak? = none := by
    refine Cursor.lineBreak?_eq_none ?_
    cases code with
    | nil => exact absurd rfl hne
    | cons e code => exact hcode
  have hpast := Cursor.past_append ('\\' :: code) tail i l k
  rw [List.cons_append, List.length_cons] at hpast
  rw [readQuoted]
  have hslash : isBlank '\\' = false ∧ isBreak '\\' = false := by decide
  simp only [hslash.1, hslash.2, Bool.or_self, Bool.not_true, Bool.false_and, Bool.true_and,
    Bool.false_eq_true, if_false, Cursor.past_cons, hline, hescape, Option.bind_some, hpast, hread]
  rfl

end ReadsQuoted

/-! ### Pairs -/

/-- If a text has no such pair, neither has its end, and none is where it is cut. -/
theorem hasPair_append {p q : Char → Bool} {xs ys : List Char}
    (h : hasPair p q (xs ++ ys) = false) :
    hasPair p q ys = false ∧
      ∀ a ∈ xs.getLast?, ∀ b ∈ ys.head?, p a = true → q b = false := by
  induction xs with
  | nil => exact ⟨h, by simp⟩
  | cons a xs ih =>
    cases xs with
    | nil =>
      cases ys with
      | nil => exact ⟨rfl, by simp⟩
      | cons b ys =>
        rw [List.cons_append, List.nil_append, hasPair, Bool.or_eq_false_iff] at h
        refine ⟨h.2, ?_⟩
        intro a' ha b' hb hp
        obtain rfl : a = a' := by simpa using ha
        obtain rfl : b = b' := by simpa using hb
        simpa [hp] using h.1
    | cons b xs =>
      rw [List.cons_append, List.cons_append, hasPair, Bool.or_eq_false_iff] at h
      obtain ⟨hys, hpair⟩ := ih h.2
      exact ⟨hys, by simpa using hpair⟩

/-- Behind a run of the first class no character of the second follows. -/
theorem head?_of_hasPair {p q : Char → Bool} {run more : List Char} (hne : run ≠ [])
    (hrun : ∀ c ∈ run, p c = true) (h : hasPair p q (run ++ more) = false) :
    ∀ c ∈ more.head?, q c = false := fun c hc =>
  (hasPair_append h).2 _ (List.getLast?_eq_some_getLast hne) c hc
    (hrun _ (List.getLast_mem hne))

/-! ### Single quotes -/

/-- Characters that are neither line breaks nor quotation marks are written as they are. -/
theorem singleQuotedChars_blanks {run more : List Char}
    (hrun : ∀ c ∈ run, isBreak c = false ∧ c ≠ '\'') (indent : Nat) :
    singleQuotedChars indent false (run ++ more) = run ++ singleQuotedChars indent false more := by
  induction run with
  | nil => rfl
  | cons c run ih =>
    obtain ⟨⟨hbreak, hquote⟩, hrun⟩ := List.forall_mem_cons.mp hrun
    rw [List.cons_append, singleQuotedChars, if_neg (by simp [hbreak]), ih hrun]
    simp [hquote]

/-- Line breaks are written as they are, and the next line is indented. -/
theorem singleQuotedChars_breaks {run more : List Char} (hne : run ≠ [])
    (hrun : ∀ c ∈ run, isBreak c = true) (hmore : ∀ c ∈ more.head?, isBreak c = false)
    (indent : Nat) (afterBreak : Bool) :
    singleQuotedChars indent afterBreak (run ++ more) =
      run ++ (spaces indent ++ singleQuotedChars indent false more) := by
  induction run generalizing afterBreak with
  | nil => exact absurd rfl hne
  | cons c run ih =>
    obtain ⟨hc, hrun⟩ := List.forall_mem_cons.mp hrun
    rw [List.cons_append, singleQuotedChars, if_pos hc]
    cases run with
    | nil =>
      cases more with
      | nil => simp [singleQuotedChars]
      | cons d more => simp [singleQuotedChars, hmore d rfl]
    | cons b run =>
      rw [ih (by simp) hrun]
      rfl

/-- What a text between quotes begins with, if it does not begin with a gap. -/
theorem noGap_singleQuotedChars {more : List Char}
    (h : ∀ c ∈ more.head?, isBlank c = false ∧ isBreak c = false) (indent : Nat)
    (tail : List Char) :
    ∀ c ∈ (singleQuotedChars indent false more ++ '\'' :: tail).head?,
      isBlank c = false ∧ isBreak c = false := by
  cases more with
  | nil =>
    rintro _ ⟨⟩
    decide
  | cons d more =>
    obtain ⟨hblank, hbreak⟩ := h d rfl
    rw [singleQuotedChars, if_neg (by simp [hbreak])]
    cases hd : d == '\'' with
    | true =>
      rintro _ ⟨⟩
      decide
    | false =>
      rintro _ ⟨⟩
      exact ⟨hblank, hbreak⟩

/-- A text without line feeds that can stand between single quotes. -/
structure IsQuotable (cs : List Char) : Prop where
  isPrintable : ∀ c ∈ cs, isPrintable c = true
  noFeed : '\n' ∉ cs
  noSpaceBreak : hasPair isSpace isBreak cs = false
  noBreakSpace : hasPair isBreak isSpace cs = false

/-- A text that can be written between single quotation marks, without line feeds, is quotable. -/
theorem isQuotable_of_canBeQuoted (hfeed : '\n' ∉ cs) (h : canBeQuoted cs = true) :
    IsQuotable cs := by
  simp only [canBeQuoted, needsEscapes, Bool.and_eq_true, Bool.not_eq_true', Bool.or_eq_false_iff,
    Bool.not_eq_false', List.all_eq_true] at h
  exact ⟨h.1.1, hfeed, h.1.2, h.2⟩

namespace IsQuotable

/-- The end of a text that can be quoted can be quoted. -/
theorem right {run more : List Char} (h : IsQuotable (run ++ more)) : IsQuotable more where
  isPrintable c hc := h.isPrintable c (by simp [hc])
  noFeed hc := h.noFeed (by simp [hc])
  noSpaceBreak := (hasPair_append h.noSpaceBreak).1
  noBreakSpace := (hasPair_append h.noBreakSpace).1

/-- The only blanks of a text that can be quoted are spaces. -/
theorem isBlank_eq (h : IsQuotable cs) (hc : c ∈ cs) : isBlank c = isSpace c :=
  isBlank_eq_isSpace (h.isPrintable c hc)

/-- Behind its line breaks a text goes on without a gap. -/
theorem noGap_of_breaks {run more : List Char} (h : IsQuotable (run ++ more)) (hne : run ≠ [])
    (hrun : ∀ c ∈ run, isBreak c = true) (hmore : ∀ c ∈ more.head?, isBreak c = false) :
    ∀ c ∈ more.head?, isBlank c = false ∧ isBreak c = false := fun c hc => by
  rw [h.isBlank_eq (List.mem_append_right _ (List.mem_of_head? hc))]
  exact ⟨head?_of_hasPair hne hrun h.noBreakSpace c hc, hmore c hc⟩

/-- Behind its blanks a text goes on without a gap. -/
theorem noGap_of_blanks {run more : List Char} (h : IsQuotable (run ++ more)) (hne : run ≠ [])
    (hrun : ∀ c ∈ run, isBlank c = true) (hmore : ∀ c ∈ more.head?, isBlank c = false) :
    ∀ c ∈ more.head?, isBlank c = false ∧ isBreak c = false := fun c hc =>
  ⟨hmore c hc, head?_of_hasPair hne
    (fun d hd => h.isBlank_eq (List.mem_append_left _ hd) ▸ hrun d hd) h.noSpaceBreak c hc⟩

end IsQuotable

/-- A text between single quotes, behind the opening one. -/
theorem readsQuoted_singleQuotedChars {indent : Nat} (hindent : 0 < indent)
    (htail : tail.head? ≠ some '\'') {fuel : Nat} (h : IsQuotable cs) (hk : 0 < k)
    (hfuel : (singleQuotedChars indent false cs).length < fuel) :
    ReadsQuoted false fuel ⟨singleQuotedChars indent false cs ++ '\'' :: tail, i, l, k⟩ cs
      tail := by
  -- By induction on the length, since runs are read at once.
  induction hm : cs.length using Nat.strongRecOn generalizing cs i l k fuel with
  | ind m ih =>
    obtain ⟨fuel, rfl⟩ : ∃ f, fuel = f + 1 := ⟨fuel - 1, by omega⟩
    subst hm
    cases cs with
    | nil => exact ReadsQuoted.close htail
    | cons c rest =>
      cases hbreak : isBreak c with
      | true =>
        obtain ⟨run, more, heq, -, hne, hrun, hmore⟩ := exists_run hbreak rest
        rw [heq] at h hfuel ih ⊢
        have hpos := List.length_pos_iff.mpr hne
        rw [singleQuotedChars_breaks hne hrun hmore] at hfuel ⊢
        simp only [List.length_append] at hfuel
        rw [List.append_assoc, List.append_assoc]
        refine ReadsQuoted.breaks hne (fun b hb => ⟨hrun b hb, h.isPrintable b (by simp [hb])⟩)
          (fun hb => h.noFeed (by simp [hb]))
          (noGap_singleQuotedChars (h.noGap_of_breaks hne hrun hmore) indent tail) hindent
          (by omega) ?_
        exact ih more.length (by simp; omega) h.right hindent (by omega) rfl
      | false =>
        cases hblank : isBlank c with
        | true =>
          obtain ⟨run, more, heq, -, hne, hrun, hmore⟩ := exists_run hblank rest
          rw [heq] at h hfuel ih ⊢
          have hpos := List.length_pos_iff.mpr hne
          have hspace : ∀ d ∈ run, isBreak d = false ∧ d ≠ '\'' := fun d hd => by
            rw [eq_space_of_isPrintable (hrun d hd) (h.isPrintable d (by simp [hd]))]
            decide
          rw [singleQuotedChars_blanks hspace] at hfuel ⊢
          rw [List.length_append] at hfuel
          rw [List.append_assoc]
          refine ReadsQuoted.blanks hne hrun
            (noGap_singleQuotedChars (h.noGap_of_blanks hne hrun hmore) indent tail) hk ?_
          exact ih more.length (by simp; omega) h.right (by omega) (by omega) rfl
        | false =>
          have hright : IsQuotable rest := @IsQuotable.right [c] rest h
          rw [singleQuotedChars, if_neg (by simp [hbreak])] at hfuel ⊢
          simp only [Bool.false_eq_true, if_false, List.nil_append] at hfuel ⊢
          cases hquote : c == '\'' with
          | true =>
            obtain rfl := beq_iff_eq.mp hquote
            simp only [hquote, if_true, List.length_append, List.length_cons] at hfuel ⊢
            exact .twoQuotes (ih rest.length (by simp) hright (by omega) (by omega) rfl)
          | false =>
            simp only [hquote, Bool.false_eq_true, if_false, List.length_append,
              List.length_cons, List.length_nil] at hfuel ⊢
            refine .char hblank hbreak (by simpa [quoteSign] using hquote) (by simp) ?_
            exact ih rest.length (by simp) hright (by omega) (by omega) rfl

/-! ### Double quotes -/

/-- An escape as it stands behind its backslash. -/
structure IsEscape (c : Char) (code : List Char) : Prop where
  ne_nil : code ≠ []
  noBreak : ∀ e ∈ code.head?, isBreak e = false
  readEscape : ∀ tail, readEscape (code ++ tail) = some (c, code.length)

/-- A letter is the escape of the character that it stands for. -/
theorem isEscape_letter {e : Char} (h : escapeLetter? c = some e) : IsEscape c [e] := by
  have he : isBreak e = false ∧ codeLength? e = none ∧ escape? e = some c := by
    unfold escapeLetter? at h
    split at h <;> cases h
    all_goals decide
  exact
    { ne_nil := by simp
      noBreak := by
        rintro _ ⟨⟩
        exact he.1
      readEscape := fun tail => by simp [readEscape, he.2.1, he.2.2] }

/-- Digits are the escape of the character of their code. -/
theorem isEscape_digits {e : Char} {width : Nat} (hwidth : codeLength? e = some width)
    (he : isBreak e = false) (hc : c.toNat < Nat.pow 16 width) :
    IsEscape c (e :: (Text.hexDigits width c.toNat).map Char.toUpper) where
  ne_nil := by simp
  noBreak := by
    rintro _ ⟨⟩
    exact he
  readEscape tail := by
    have htake : ((Text.hexDigits width c.toNat).map Char.toUpper ++ tail).take width =
        (Text.hexDigits width c.toNat).map Char.toUpper := List.take_left' (by simp)
    have hchar : charOfCode? c.toNat = some c := by
      have hvalid : c.toNat.isValidChar := c.valid
      rw [charOfCode?, if_pos hvalid, Char.ofNat_toNat]
    rw [List.cons_append, readEscape]
    simp only [hwidth, htake, Text.hexNumber?_toUpper hc]
    simp [hchar]

/-- The code of a character is an escape of it. -/
theorem isEscape_codeEscape (c : Char) : IsEscape c (codeEscape c) := by
  have hc : c.toNat < 0x110000 := by
    rcases c.valid with h | h
    · exact Nat.lt_trans h (by decide)
    · exact h.2
  rw [codeEscape]
  split
  · exact isEscape_digits rfl rfl (show c.toNat < 0x100 by omega)
  · split
    · exact isEscape_digits rfl rfl (show c.toNat < 0x10000 by omega)
    · exact isEscape_digits rfl rfl (show c.toNat < 0x100000000 by omega)

/-- A character between double quotes is itself or an escape. -/
theorem escapeChar_cases (c : Char) :
    (escapeChar c = [c] ∧ isPrintable c = true ∧ isBreak c = false ∧ c ≠ '"' ∧ c ≠ '\\') ∨
      ∃ code, escapeChar c = '\\' :: code ∧ IsEscape c code := by
  rw [escapeChar]
  split
  · right
    cases h : escapeLetter? c with
    | none => exact ⟨_, rfl, isEscape_codeEscape c⟩
    | some e => exact ⟨_, rfl, isEscape_letter h⟩
  · rename_i h
    left
    simpa [and_assoc] using h

/-- Spaces are not escaped. -/
theorem flatMap_escapeChar_spaces {run more : List Char} (hrun : ∀ c ∈ run, isSpace c = true) :
    (run ++ more).flatMap escapeChar = run ++ more.flatMap escapeChar := by
  induction run with
  | nil => rfl
  | cons c run ih =>
    obtain ⟨hc, hspaces⟩ := List.forall_mem_cons.mp hrun
    rw [List.cons_append, List.flatMap_cons, ih hspaces, beq_iff_eq.mp hc]
    rfl

/-- What a text between quotes begins with, if it does not begin with a space. -/
theorem noGap_flatMap_escapeChar {more : List Char} (h : ∀ c ∈ more.head?, isSpace c = false)
    (tail : List Char) :
    ∀ c ∈ (more.flatMap escapeChar ++ '"' :: tail).head?,
      isBlank c = false ∧ isBreak c = false := by
  cases more with
  | nil =>
    rintro _ ⟨⟩
    decide
  | cons d more =>
    rw [List.flatMap_cons]
    rcases escapeChar_cases d with ⟨heq, hprintable, hbreak, -⟩ | ⟨code, heq, -⟩
    · rw [heq]
      rintro _ ⟨⟩
      exact ⟨(isBlank_eq_isSpace hprintable).trans (h d rfl), hbreak⟩
    · rw [heq]
      rintro _ ⟨⟩
      decide

/-- A text between double quotes, behind the opening one. -/
theorem readsQuoted_escaped (htail : tail.head? ≠ some '\'') {fuel : Nat} (hk : 0 < k)
    (hfuel : (cs.flatMap escapeChar).length < fuel) :
    ReadsQuoted true fuel ⟨cs.flatMap escapeChar ++ '"' :: tail, i, l, k⟩ cs tail := by
  -- By induction on the length, since runs of spaces are read at once.
  induction hm : cs.length using Nat.strongRecOn generalizing cs i l k fuel with
  | ind m ih =>
    obtain ⟨fuel, rfl⟩ : ∃ f, fuel = f + 1 := ⟨fuel - 1, by omega⟩
    subst hm
    cases cs with
    | nil => exact ReadsQuoted.close htail
    | cons c rest =>
      cases hspace : isSpace c with
      | true =>
        obtain ⟨run, more, heq, -, hne, hrun, hmore⟩ := exists_run hspace rest
        rw [heq] at hfuel ih ⊢
        have hpos := List.length_pos_iff.mpr hne
        rw [flatMap_escapeChar_spaces hrun] at hfuel ⊢
        rw [List.length_append] at hfuel
        rw [List.append_assoc]
        refine .blanks hne (fun d hd => ?_) (noGap_flatMap_escapeChar hmore tail) hk
          (ih more.length (by simp; omega) (by omega) (by omega) rfl)
        rw [beq_iff_eq.mp (hrun d hd)]
        rfl
      | false =>
        rw [List.flatMap_cons, List.length_append] at hfuel
        rw [List.flatMap_cons, List.append_assoc]
        rcases escapeChar_cases c with
          ⟨heq, hprintable, hbreak, hquote, hslash⟩ | ⟨code, heq, hcode⟩
        · rw [heq, List.length_singleton] at hfuel
          rw [heq]
          exact .char ((isBlank_eq_isSpace hprintable).trans hspace) hbreak hquote (fun _ => hslash)
            (ih rest.length (by simp) (by omega) (by omega) rfl)
        · rw [heq, List.length_cons] at hfuel
          rw [heq]
          exact .escape hcode.noBreak hcode.ne_nil (hcode.readEscape _)
            (ih rest.length (by simp) (by omega) (by omega) rfl)

end InstrGraph.Yaml

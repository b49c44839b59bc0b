import InstrGraph.Proofs.Text.Cuts

/-!
# Words and labels

The words of a text do not depend on blanks at its ends (`words_trim`), and those of a renamed text
are the renamed words (`words_mapIdentifiers`). A text has one word exactly if trimming leaves it
(`words_eq_singleton_iff`).

The last word of a text without blanks at its end is the end of the text
(`suffix_of_getLast?_words`). So a label whose last word is a local name without colons is
normalized to that word (`normalizeLabel_eq_lastToken`).
-/

namespace InstrGraph.Text

/-! ### Trimming -/

variable {p : Char → Bool} {cs : List Char}

/-- Nothing is trimmed off a text that does not end in a character of the class. -/
theorem trimEndOf_eq_self (h : ∀ c ∈ cs.getLast?, p c = false) : trimEndOf p cs = cs := by
  induction cs with
  | nil => rfl
  | cons c cs ih =>
    rw [trimEndOf_cons]
    cases cs with
    | nil =>
      have hc : p c = false := h c (by simp)
      simp [trimEndOf, hc]
    | cons d cs =>
      rw [ih fun e he => h e (by simpa using he)]
      simp

/-- What is trimmed from the end is of the class. -/
theorem exists_eq_trimEndOf_append (p : Char → Bool) (cs : List Char) :
    ∃ run, cs = trimEndOf p cs ++ run ∧ ∀ c ∈ run, p c = true := by
  induction cs with
  | nil => exact ⟨[], rfl, by simp⟩
  | cons c cs ih =>
    obtain ⟨run, heq, hrun⟩ := ih
    rw [trimEndOf_cons]
    split
    · rename_i hif
      rw [Bool.and_eq_true, List.isEmpty_iff] at hif
      refine ⟨c :: run, ?_, ?_⟩
      · rw [hif.1] at heq
        simpa using heq
      · exact List.forall_mem_cons.mpr ⟨hif.2, hrun⟩
    · exact ⟨run, by rw [List.cons_append, ← heq], hrun⟩

/-- Trimming the end of a text leaves a beginning of it. -/
theorem trimEndOf_isPrefix (p : Char → Bool) (cs : List Char) : trimEndOf p cs <+: cs := by
  obtain ⟨run, heq, -⟩ := exists_eq_trimEndOf_append p cs
  exact ⟨run, heq.symm⟩

/-- Trimming the end of a text twice does no more than trimming it once. -/
theorem trimEnd_trimEnd (cs : List Char) : trimEnd (trimEnd cs) = trimEnd cs :=
  trimEndOf_eq_self fun c hc => trimEndOf_getLast? isBlank cs c hc

/-- Trimming once is enough. -/
theorem trim_trim (cs : List Char) : trim (trim cs) = trim cs := by
  have hstart : trimStart (trim cs) = trim cs := by
    obtain ⟨run, heq⟩ := trimEndOf_isPrefix isBlank (trimStart cs)
    cases ht : trim cs with
    | nil => rfl
    | cons c rest =>
      have hcs : cs.dropWhile isBlank = c :: (rest ++ run) := by
        rw [← List.cons_append, ← ht]
        exact heq.symm
      have hc : ¬ isBlank c = true := by
        have := List.head?_dropWhile_not isBlank cs
        rw [hcs] at this
        simpa using this
      exact List.dropWhile_cons_of_neg hc
  rw [trim, hstart, trim, trimEnd_trimEnd]

/-! ### Blanks around words -/

/-- Blanks have no words. -/
theorem wordsOpen_of_isBlank {run : List Char} (h : ∀ c ∈ run, isBlank c = true) :
    wordsOpen run = ([], []) := by
  induction run with
  | nil => rfl
  | cons c run ih =>
    rw [wordsOpen, ih fun d hd => h d (by simp [hd])]
    simp [h c (by simp)]

/-- Blanks at the end do not matter for the words. -/
theorem words_append_of_isBlank (cs : List Char) {run : List Char}
    (h : ∀ c ∈ run, isBlank c = true) : words (cs ++ run) = words cs := by
  have hopen : wordsOpen (cs ++ run) = wordsOpen cs := by
    induction cs with
    | nil => exact wordsOpen_of_isBlank h
    | cons c cs ih => rw [List.cons_append, wordsOpen, ih, wordsOpen]
  rw [words, hopen, words]

/-- A blank at the beginning does not matter for the words. -/
theorem words_cons_of_isBlank {c : Char} (h : isBlank c = true) (cs : List Char) :
    words (c :: cs) = words cs := by
  rw [words, wordsOpen, words]
  simp [h]

/-- Blanks at the beginning do not matter for the words. -/
theorem words_dropWhile_isBlank (cs : List Char) : words (cs.dropWhile isBlank) = words cs := by
  induction cs with
  | nil => rfl
  | cons c cs ih =>
    cases h : isBlank c with
    | false => rw [List.dropWhile_cons_of_neg (by simp [h])]
    | true => rw [List.dropWhile_cons_of_pos h, ih, words_cons_of_isBlank h]

/-- Trimming the end of a text does not change its words. -/
theorem words_trimEnd (cs : List Char) : words (trimEnd cs) = words cs := by
  obtain ⟨run, heq, hrun⟩ := exists_eq_trimEndOf_append isBlank cs
  calc words (trimEnd cs) = words (trimEnd cs ++ run) := (words_append_of_isBlank _ hrun).symm
    _ = words cs := congrArg words heq.symm

/-- Blanks at the ends of a text do not matter for its words. -/
theorem words_trim (cs : List Char) : words (trim cs) = words cs := by
  rw [trim, words_trimEnd, trimStart, words_dropWhile_isBlank]

/-- Trimming a text does not change its last token. -/
theorem lastToken_trim (cs : List Char) : lastToken (trim cs) = lastToken cs := by
  rw [lastToken, words_trim, lastToken]

/-- A text without blanks is a single word. -/
theorem words_of_not_isBlank (h : ∀ c ∈ cs, isBlank c = false) (hne : cs ≠ []) :
    words cs = [cs] := by
  have hopen := wordsOpen_append h []
  rw [List.append_nil] at hopen
  rw [words, hopen]
  cases cs with
  | nil => exact absurd rfl hne
  | cons c cs => simp [wordsOpen]

/-- The last run of a text that ends in a word is its end. -/
theorem wordsOpen_suffix (h : ∀ c ∈ cs.getLast?, isBlank c = false) :
    ((wordsOpen cs).2 = [] → (wordsOpen cs).1 = cs) ∧
      ∀ w ∈ (wordsOpen cs).2.getLast?, w <:+ cs := by
  induction cs with
  | nil => simp [wordsOpen]
  | cons c cs ih =>
    have hne : cs = [] → isBlank c = false := by
      rintro rfl
      exact h c (by simp)
    have ih := ih fun d hd => h d (by
      cases cs with
      | nil => simp at hd
      | cons e es => simpa using hd)
    rw [wordsOpen]
    generalize hopen : wordsOpen cs = open' at ih
    obtain ⟨run, runs⟩ := open'
    dsimp only at ih ⊢
    cases hb : isBlank c with
    | false =>
      refine ⟨fun hr => ?_, fun w hw => (ih.2 w hw).trans (List.suffix_cons _ _)⟩
      simp only [Bool.false_eq_true, if_false] at hr ⊢
      rw [ih.1 hr]
    | true =>
      simp only [if_true]
      cases hrun : run.isEmpty with
      | true =>
        simp only [if_true]
        refine ⟨fun hr => ?_, fun w hw => (ih.2 w hw).trans (List.suffix_cons _ _)⟩
        -- a text without words is empty, and then the blank would be its last character
        have hcs : run = cs := ih.1 hr
        rw [List.isEmpty_iff.mp hrun] at hcs
        rw [hne hcs.symm] at hb
        exact absurd hb (by simp)
      | false =>
        simp only [Bool.false_eq_true, if_false]
        refine ⟨by simp, fun w hw => ?_⟩
        cases hr : runs with
        | nil =>
          obtain rfl : run = w := by simpa [hr] using hw
          rw [ih.1 hr]
          exact List.suffix_cons _ _
        | cons r rs =>
          rw [hr, List.getLast?_cons_cons] at hw
          exact (ih.2 w (hr ▸ hw)).trans (List.suffix_cons _ _)

/-- The last word of a text that ends in a word is its end. -/
theorem suffix_of_getLast?_words (h : ∀ c ∈ cs.getLast?, isBlank c = false) {w : List Char}
    (hw : (words cs).getLast? = some w) : w <:+ cs := by
  obtain ⟨hrun, hruns⟩ := wordsOpen_suffix h
  rw [words] at hw
  dsimp only at hw
  split at hw
  · exact hruns w hw
  · cases hr : (wordsOpen cs).2 with
    | nil =>
      rw [hr] at hw
      obtain rfl : (wordsOpen cs).1 = w := by simpa using hw
      exact (hrun hr).symm ▸ List.suffix_rfl
    | cons r rs =>
      rw [hr, List.getLast?_cons_cons] at hw
      exact hruns w (hr ▸ hw)

/-- What is not blank stands in a word. -/
theorem exists_mem_words {c : Char} (hc : c ∈ cs) (hb : isBlank c = false) :
    ∃ w ∈ words cs, c ∈ w := by
  have hopen : c ∈ (wordsOpen cs).1 ∨ ∃ w ∈ (wordsOpen cs).2, c ∈ w := by
    induction cs with
    | nil => simp at hc
    | cons d cs ih =>
      rw [wordsOpen]
      rcases List.mem_cons.mp hc with rfl | hc
      · left
        simp [hb]
      · cases isBlank d with
        | false => exact (ih hc).imp_left (List.mem_cons_of_mem _)
        | true =>
          right
          simp only [if_true]
          rcases ih hc with hrun | ⟨w, hw, hcw⟩
          · rw [List.isEmpty_eq_false_iff.mpr (List.ne_nil_of_mem hrun)]
            exact ⟨_, List.mem_cons_self, hrun⟩
          · split
            · exact ⟨w, hw, hcw⟩
            · exact ⟨w, List.mem_cons_of_mem _ hw, hcw⟩
  rw [words]
  rcases hopen with hrun | ⟨w, hw, hcw⟩
  · dsimp only
    rw [List.isEmpty_eq_false_iff.mpr (List.ne_nil_of_mem hrun)]
    exact ⟨_, List.mem_cons_self, hrun⟩
  · dsimp only
    split
    · exact ⟨w, hw, hcw⟩
    · exact ⟨w, List.mem_cons_of_mem _ hw, hcw⟩

/-- No word has blanks. -/
theorem not_isBlank_of_mem_words {w : List Char} (hw : w ∈ words cs) :
    ∀ c ∈ w, isBlank c = false := by
  have hopen : (∀ c ∈ (wordsOpen cs).1, isBlank c = false) ∧
      ∀ w ∈ (wordsOpen cs).2, ∀ c ∈ w, isBlank c = false := by
    clear hw
    induction cs with
    | nil => simp [wordsOpen]
    | cons c cs ih =>
      obtain ⟨hrun, hruns⟩ := ih
      rw [wordsOpen]
      cases hb : isBlank c with
      | false => exact ⟨List.forall_mem_cons.mpr ⟨hb, hrun⟩, hruns⟩
      | true =>
        refine ⟨by simp, fun w hw => ?_⟩
        simp only [if_true] at hw
        split at hw
        · exact hruns w hw
        · rcases List.mem_cons.mp hw with rfl | hw
          · exact hrun
          · exact hruns w hw
  obtain ⟨hrun, hruns⟩ := hopen
  rw [words] at hw
  dsimp only at hw
  split at hw
  · exact hruns w hw
  · rcases List.mem_cons.mp hw with rfl | hw
    · exact hrun
    · exact hruns w hw

/-- No last token has blanks. -/
theorem not_isBlank_of_mem_lastToken (cs : List Char) : ∀ c ∈ lastToken cs, isBlank c = false := by
  intro c hc
  rw [lastToken_eq] at hc
  have hc := (trimEndOf_isPrefix _ _).mem hc
  cases hw : (words cs).getLast? with
  | none => simp [hw] at hc
  | some w =>
    rw [hw, Option.getD_some] at hc
    exact not_isBlank_of_mem_words (List.mem_of_getLast? hw) c hc

/-! ### Texts of one word -/

/-- Trimming leaves the word of a text that has only one. -/
theorem trim_eq_of_words_eq {w : List Char} (h : words cs = [w]) : trim cs = w := by
  rw [← words_trim] at h
  have hend : ∀ c ∈ (trim cs).getLast?, isBlank c = false :=
    fun c hc => trimEndOf_getLast? isBlank _ c hc
  have hhead : ∀ c ∈ (trim cs).head?, isBlank c = false := by
    intro c hc
    have hpre : trim cs <+: cs.dropWhile isBlank := trimEndOf_isPrefix _ _
    rw [Option.mem_def, List.head?_eq_some_iff] at hc
    obtain ⟨rest, hrest⟩ := hc
    rw [hrest] at hpre
    obtain ⟨after, hafter⟩ := hpre
    have := List.head?_dropWhile_not isBlank cs
    rw [← hafter] at this
    simpa using this
  generalize trim cs = ds at h hend hhead
  cases ds with
  | nil => simp [words, wordsOpen] at h
  | cons d ds =>
    have hd := hhead d rfl
    have hrun := (wordsOpen_suffix hend).1
    rw [words] at h
    have hne : (wordsOpen (d :: ds)).1.isEmpty = false := by simp [wordsOpen, hd]
    simp only [hne, Bool.false_eq_true, if_false, List.cons.injEq] at h
    rw [← hrun h.2, h.1]

/-- A text has one word exactly if trimming leaves one. -/
theorem words_eq_singleton_iff {w : List Char} :
    words cs = [w] ↔ trim cs = w ∧ w ≠ [] ∧ ∀ c ∈ w, isBlank c = false := by
  constructor
  · intro h
    have hmem : w ∈ words cs := by
      rw [h]
      exact List.mem_singleton_self w
    have hblank := not_isBlank_of_mem_words hmem
    refine ⟨trim_eq_of_words_eq h, ?_, hblank⟩
    rintro rfl
    have htrim := trim_eq_of_words_eq h
    rw [← words_trim, htrim] at h
    simp [words, wordsOpen] at h
  · rintro ⟨htrim, hne, hblank⟩
    rw [← words_trim, htrim, words_of_not_isBlank hblank hne]

/-- A text has no words exactly if trimming leaves nothing. -/
theorem words_eq_nil_iff : words cs = [] ↔ trim cs = [] := by
  constructor
  · intro h
    by_contra hne
    have hlast := List.getLast?_eq_some_getLast hne
    obtain ⟨w, hw, -⟩ := exists_mem_words (List.mem_of_getLast? hlast)
      (trimEndOf_getLast? isBlank _ _ hlast)
    rw [words_trim, h] at hw
    simp at hw
  · intro h
    rw [← words_trim, h]
    rfl

section

variable {g : List Char → List Char}

/-- The words of a renamed text are the renamed words. -/
theorem words_mapIdentifiers (h : KeepsIdentifiers g cs) :
    words (mapIdentifiers g cs) = (words cs).map (mapIdentifiers g) := by
  have hvalid : ∀ p ∈ (pieces cs).map (Piece.mapIdent g), p.Valid := by
    rw [← pieces_mapIdentifiers h]
    exact (wellCut_pieces _).valid
  calc words (mapIdentifiers g cs) = words (render ((pieces cs).map (Piece.mapIdent g))) := by
        rw [mapIdentifiers_eq_render h]
    _ = ((Piece.words (pieces cs)).map (List.map (Piece.mapIdent g))).map render := by
        rw [words_render hvalid, Piece.words_map]
    _ = ((Piece.words (pieces cs)).map render).map (mapIdentifiers g) := by
        rw [List.map_map, List.map_map]
        refine List.map_congr_left fun w hw => ?_
        have hinside := Piece.words_infix hw
        have hpieces := pieces_render ((wellCut_pieces cs).of_isInfix hinside)
        have hkeeps : KeepsIdentifiers g (render w) := by
          intro t ht
          obtain ⟨p, hp, heq⟩ := mem_identifiers_iff.mp ht
          rw [hpieces] at hp
          exact h t (mem_identifiers_iff.mpr ⟨p, hinside.mem hp, heq⟩)
        rw [Function.comp_apply, Function.comp_apply, mapIdentifiers_eq_render hkeeps, hpieces]
    _ = (words cs).map (mapIdentifiers g) := by
        rw [← words_render (wellCut_pieces cs).valid, render_pieces]

end

section

variable {g g' : List Char → List Char} {d : Char}

/-- Two renamings of a text end in the same character, unless the last identifier makes the
difference. -/
theorem getLast?_mapIdentifiers (hg : KeepsIdentifiers g cs) (hg' : KeepsIdentifiers g' cs)
    (h : ∀ t ∈ identifiers cs, g' t = g t ∨ (g' t).getLast? ≠ some d)
    (hd : (mapIdentifiers g' cs).getLast? = some d) : (mapIdentifiers g cs).getLast? = some d := by
  rw [mapIdentifiers_eq_render hg'] at hd
  rw [mapIdentifiers_eq_render hg]
  rcases List.eq_nil_or_concat' (pieces cs) with hnil | ⟨ps, p, heq⟩
  · rw [hnil] at hd
    simp at hd
  · have hlast (k : List Char → List Char) :
        (render ((pieces cs).map (Piece.mapIdent k))).getLast? =
          (Piece.mapIdent k p).chars.getLast? := by
      have happend : render ((ps ++ [p]).map (Piece.mapIdent k)) =
          render (ps.map (Piece.mapIdent k)) ++ (Piece.mapIdent k p).chars := by
        simp [render, List.flatMap_append]
      rw [heq, happend, List.getLast?_append_of_ne_nil _ (Piece.chars_ne_nil _)]
    rw [hlast] at hd ⊢
    cases p with
    | other c => exact hd
    | ident s n =>
      have ht : s :: n ∈ identifiers cs :=
        mem_identifiers_iff.mpr ⟨.ident s n, by simp [heq], rfl⟩
      rw [Piece.chars_mapIdent_ident (hg' _ ht)] at hd
      rw [Piece.chars_mapIdent_ident (hg _ ht)]
      exact (h _ ht).elim (fun hself => hself ▸ hd) fun hne => absurd hd hne

end

/-! ### Labels -/

/-- A label whose last word is a local name with no colon at its end stands for that word. -/
theorem normalizeLabel_eq_lastToken (hq : '"' ∉ cs) (hhead : (lastToken cs).head? = some '%')
    (hcolon : (lastToken cs).getLast? ≠ some ':') : normalizeLabel cs = lastToken cs := by
  -- the last word ends the trimmed text, so no colon is there to be cut off
  have htrim : trimEndOf (· == ':') (trim cs) = trim cs := by
    refine trimEndOf_eq_self fun c hc => ?_
    rw [lastToken_eq, ← words_trim] at hhead hcolon
    cases hw : (words (trim cs)).getLast? with
    | none => simp [hw, trimEndOf] at hhead
    | some w =>
      rw [hw, Option.getD_some] at hhead hcolon
      have hend : ∀ d ∈ (trim cs).getLast?, isBlank d = false :=
        fun d hd => trimEndOf_getLast? isBlank _ d hd
      obtain ⟨before, heq⟩ := suffix_of_getLast?_words hend hw
      obtain ⟨commas, hcommas, hall⟩ := exists_eq_trimEndOf_append (· == ',') w
      rw [beq_eq_false_iff_ne]
      rintro rfl
      have hwne : w ≠ [] := by
        rintro rfl
        simp [trimEndOf] at hhead
      rw [← heq, Option.mem_def, List.getLast?_append_of_ne_nil _ hwne] at hc
      cases commas with
      | nil =>
        rw [List.append_nil] at hcommas
        exact hcolon (hcommas ▸ hc)
      | cons d commas =>
        rw [hcommas, List.getLast?_append_of_ne_nil _ (by simp)] at hc
        simpa using hall ':' (List.mem_of_getLast? hc)
  have hfilter : (trim cs).filter (· ≠ '"') = trim cs := by
    refine List.filter_eq_self.mpr fun c hc => ?_
    have hmem : c ∈ cs := (Cut.trim.apply_infix cs).mem hc
    rw [decide_eq_true_iff]
    rintro rfl
    exact hq hmem
  rw [normalizeLabel, htrim, hfilter, lastToken_trim]
  cases hl : lastToken cs with
  | nil => simp [hl] at hhead
  | cons c rest =>
    obtain rfl : c = '%' := by simpa [hl] using hhead
    rfl

/-- The last word of a text of one word is that text without commas at its end. -/
theorem lastToken_of_not_isBlank (h : ∀ c ∈ cs, isBlank c = false) :
    lastToken cs = trimEndOf (· == ',') cs := by
  cases cs with
  | nil => rfl
  | cons c cs =>
    rw [lastToken_eq, words_of_not_isBlank h (by simp), List.getLast?_singleton, Option.getD_some]

/-- A label is the last word of a text without double quotes, with a sigil in front if there was
none. -/
theorem normalizeLabel_cases (cs : List Char) : ∃ ds, '"' ∉ ds ∧
    (normalizeLabel cs = lastToken ds ∨ normalizeLabel cs = '%' :: lastToken ds) := by
  refine ⟨(trimEndOf (· == ':') (trim cs)).filter (· ≠ '"'), by simp, ?_⟩
  unfold normalizeLabel
  dsimp only
  split
  · exact Or.inl rfl
  · exact Or.inr rfl

/-- No double quote is left in a label. -/
theorem quote_not_mem_normalizeLabel (cs : List Char) : '"' ∉ normalizeLabel cs := by
  obtain ⟨ds, hq, heq | heq⟩ := normalizeLabel_cases cs
  · rw [heq]
    exact fun hmem => hq ((Cut.lastToken.apply_infix ds).mem hmem)
  · rw [heq, List.mem_cons, not_or]
    exact ⟨by decide, fun hmem => hq ((Cut.lastToken.apply_infix ds).mem hmem)⟩

/-- A label is one word. -/
theorem not_isBlank_of_mem_normalizeLabel (cs : List Char) :
    ∀ c ∈ normalizeLabel cs, isBlank c = false := by
  obtain ⟨ds, -, heq | heq⟩ := normalizeLabel_cases cs
  · rw [heq]
    exact not_isBlank_of_mem_lastToken ds
  · rw [heq]
    exact List.forall_mem_cons.mpr ⟨by decide, not_isBlank_of_mem_lastToken ds⟩

/-- A label has no commas at its end. -/
theorem lastToken_normalizeLabel (cs : List Char) :
    lastToken (normalizeLabel cs) = normalizeLabel cs := by
  rw [lastToken_of_not_isBlank (not_isBlank_of_mem_normalizeLabel cs)]
  refine trimEndOf_eq_self fun c hc => ?_
  obtain ⟨ds, -, heq⟩ := normalizeLabel_cases cs
  have hname : ∀ d ∈ (lastToken ds).getLast?, (d == ',') = false :=
    fun d hd => trimEndOf_getLast? _ _ d (lastToken_eq ds ▸ hd)
  rcases heq with heq | heq
  · exact hname c (heq ▸ hc)
  · rw [heq] at hc
    cases hl : lastToken ds with
    | nil =>
      obtain rfl : '%' = c := by simpa [hl] using hc
      decide
    | cons d name =>
      rw [hl, List.getLast?_cons_cons] at hc
      exact hname c (hl ▸ hc)

end InstrGraph.Text

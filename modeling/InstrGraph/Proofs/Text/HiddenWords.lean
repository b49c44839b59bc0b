import InstrGraph.Proofs.Text.Hiding
import InstrGraph.Proofs.Text.Words

/-!
# Reading a text whose constants are hidden

Word by word, a text and what hiding makes of it differ in values only (`Hidden.words`), and so do
their last words (`Hidden.lastToken`). A word that is an identifier is the same in both
(`HiddenWord.eq_of_isIdentifier`), and hiding leaves the text in front of an equals sign in its
place (`Hidden.takeWhile_assigned`).
-/

namespace InstrGraph.Text

/-! ### Words -/

section

variable {form : ImmediateForm} {placeholder : List Char} {xs ys w w' : List Char}

/-- Hiding values does not make a text empty, or one that is not. -/
theorem Hidden.isEmpty_eq (hp : Inert placeholder) (h : Hidden form placeholder xs ys) :
    ys.isEmpty = xs.isEmpty := by
  cases h with
  | nil => rfl
  | char c h => rfl
  | @value lead lead' value xs ys hlead hvalue hends h =>
    have hleft : lead ++ (value ++ xs) ≠ [] := by simp [hvalue.1]
    have hright : lead' ++ (placeholder ++ ys) ≠ [] := by simp [hp.ne_nil]
    rw [List.isEmpty_eq_false_iff.mpr hleft, List.isEmpty_eq_false_iff.mpr hright]

/-- Blanks end the word in front of them. -/
theorem wordsOpen_blanks_append {gap : List Char} (hne : gap ≠ [])
    (hgap : ∀ c ∈ gap, isBlank c = true) (cs : List Char) :
    wordsOpen (gap ++ cs) = ([], words cs) := by
  induction gap with
  | nil => exact absurd rfl hne
  | cons c gap ih =>
    have hc := hgap c (by simp)
    cases gap with
    | nil =>
      show wordsOpen (c :: cs) = _
      rw [wordsOpen, words]
      simp [hc]
    | cons d gap =>
      rw [List.cons_append, wordsOpen, ih (by simp) fun e he => hgap e (List.mem_cons_of_mem _ he)]
      simp [hc]

/-- A run without blanks belongs to the first word. -/
theorem words_append_of_not_isBlank {run : List Char} (hne : run ≠ [])
    (hrun : ∀ c ∈ run, isBlank c = false) (cs : List Char) :
    words (run ++ cs) = (run ++ (wordsOpen cs).1) :: (wordsOpen cs).2 := by
  rw [words, wordsOpen_append hrun]
  simp [hne]

/-- If a word ends in front of a text, no word is open there. -/
theorem endsWord_wordsOpen {cs : List Char} (h : Immediate.endsWord cs = true) :
    Immediate.endsWord (wordsOpen cs).1 = true := by
  cases cs with
  | nil => rfl
  | cons c cs =>
    rw [wordsOpen]
    cases isBlank c with
    | true => rfl
    | false => exact h

/-- A word and what hiding makes of it. At the beginning of a word a value may be hidden on its
own, what stood in front of it belongs to another word. -/
inductive HiddenWord (form : ImmediateForm) (placeholder : List Char) :
    List Char → List Char → Prop
  | within {w w' : List Char} : Hidden form placeholder w w' → HiddenWord form placeholder w w'
  | value {value r r' : List Char} (hvalue : IsValue value) (hends : Immediate.endsWord r = true) :
      Hidden form placeholder r r' → HiddenWord form placeholder (value ++ r) (placeholder ++ r')

/-- A value has no blanks. -/
theorem IsValue.not_isBlank {value : List Char} (h : IsValue value) :
    ∀ c ∈ value, isBlank c = false := by
  intro c hc
  rcases h.2 c hc with rfl | hd
  · decide
  · exact isBlank_of_isWord (isWord_of_isDigit hd)

/-- The words of a text with hidden values are its words, each with values hidden, with the word
that is still open. -/
theorem Hidden.wordsOpen (hp : Inert placeholder) (h : Hidden form placeholder xs ys) :
    Hidden form placeholder (wordsOpen xs).1 (wordsOpen ys).1 ∧
      List.Forall₂ (HiddenWord form placeholder) (wordsOpen xs).2 (wordsOpen ys).2 := by
  induction h with
  | nil => exact ⟨.nil, .nil⟩
  | @char c xs ys h ih =>
    obtain ⟨hrun, hruns⟩ := ih
    rw [Text.wordsOpen, Text.wordsOpen]
    cases isBlank c with
    | false => exact ⟨.char c hrun, hruns⟩
    | true =>
      refine ⟨.nil, ?_⟩
      simp only [if_true]
      rw [hrun.isEmpty_eq hp]
      split
      · exact hruns
      · exact .cons (.within hrun) hruns
  | value hlead hvalue hends h ih =>
    obtain ⟨hrun, hruns⟩ := ih
    have hplain : ∀ c ∈ placeholder, isBlank c = false := fun c hc => (hp.plain c hc).2.1
    cases hlead with
    | blanks hne hgap =>
      rw [wordsOpen_blanks_append hne hgap,
        wordsOpen_blanks_append (by simp) (forall_mem_of_all (by decide)),
        words_append_of_not_isBlank hvalue.1 hvalue.not_isBlank,
        words_append_of_not_isBlank hp.ne_nil hplain]
      exact ⟨.nil, .cons (.value hvalue (endsWord_wordsOpen hends) hrun) hruns⟩
    | paren =>
      have hparen : ∀ c ∈ ['('], isBlank c = false := forall_mem_of_all (by decide)
      rw [wordsOpen_append hparen, wordsOpen_append hparen, wordsOpen_append hvalue.not_isBlank,
        wordsOpen_append hplain]
      exact ⟨.value .paren hvalue (endsWord_wordsOpen hends) hrun, hruns⟩

/-- Word by word a text and what hiding makes of it differ in values only. -/
theorem Hidden.words (hp : Inert placeholder) (h : Hidden form placeholder xs ys) :
    List.Forall₂ (HiddenWord form placeholder) (words xs) (words ys) := by
  obtain ⟨hrun, hruns⟩ := h.wordsOpen hp
  rw [Text.words, Text.words]
  dsimp only
  rw [hrun.isEmpty_eq hp]
  split
  · exact hruns
  · exact .cons (.within hrun) hruns

namespace HiddenWord

/-- Hiding values in a word does not change its identifiers. -/
theorem identifiers_eq (hp : Inert placeholder) (h : HiddenWord form placeholder w w') :
    identifiers w' = identifiers w := by
  have hplain : ∀ c ∈ placeholder, isSigil c = false := fun c hc => (hp.plain c hc).1
  cases h with
  | within h => exact (h.identifiers_eq hplain).2
  | value hvalue hends h =>
    rw [identifiers_append_of_not_isSigil hplain,
      identifiers_append_of_not_isSigil hvalue.not_isSigil, (h.identifiers_eq hplain).2]

/-- An identifier has neither blanks nor brackets. -/
theorem not_mem_identifier {t : List Char} (ht : isIdentifier t = true) :
    ∀ c ∈ t, isBlank c = false ∧ c ≠ '(' := by
  intro c hc
  have hparen := foreign_beq (d := '(') (by decide) (by decide) t ht c hc
  exact ⟨foreign_isBlank t ht c hc, by simpa using hparen⟩

/-- A word that is an identifier stays as it is. -/
theorem eq_of_isIdentifier (h : HiddenWord form placeholder w w')
    (hw : isIdentifier w = true) : w' = w := by
  have hchars := not_mem_identifier hw
  cases h with
  | within h =>
    clear hw
    induction h with
    | nil => rfl
    | char c h ih => rw [ih fun d hd => hchars d (List.mem_cons_of_mem _ hd)]
    | @value lead _ _ _ _ hlead hvalue hends h ih =>
      cases hlead with
      | blanks hne hgap =>
        cases lead with
        | nil => exact absurd rfl hne
        | cons c gap =>
          have := (hchars c (by simp)).1
          rw [hgap c (by simp)] at this
          exact absurd this (by simp)
      | paren => exact absurd rfl (hchars '(' (by simp)).2
  | @value value r r' hvalue hends h =>
    cases value with
    | nil => exact absurd rfl hvalue.1
    | cons c value =>
      rw [List.cons_append, isIdentifier_cons] at hw
      rw [hvalue.not_isSigil c (by simp)] at hw
      exact absurd hw.1 (by simp)

/-- A word that has become an identifier was that identifier before. -/
theorem eq_of_isIdentifier' (hp : Inert placeholder) (h : HiddenWord form placeholder w w')
    (hw : isIdentifier w' = true) : w' = w := by
  obtain ⟨p, tail, rfl, himm, hname, -⟩ := hp.head
  have hsigil : isSigil p = false := (hp.plain p (by simp)).1
  have hp : p ∉ w' := by
    intro hmem
    have := foreign_beq hsigil hname w' hw p hmem
    simp at this
  cases h with
  | within h =>
    clear hw
    induction h with
    | nil => rfl
    | char c h ih => rw [ih fun hd => hp (List.mem_cons_of_mem _ hd)]
    | value => exact absurd (by simp) hp
  | value => exact absurd (by simp) hp

/-- Hiding does not change whether a word is a local name. -/
theorem head?_eq_iff (hp : Inert placeholder) (h : HiddenWord form placeholder w w') :
    w'.head? = some '%' ↔ w.head? = some '%' := by
  cases h with
  | within h =>
    cases h with
    | nil => rfl
    | char c h => rfl
    | @value lead _ _ _ _ hlead hvalue hends h =>
      cases hlead with
      | blanks hne hgap =>
        cases lead with
        | nil => exact absurd rfl hne
        | cons c gap =>
          have hc : c ≠ '%' := by
            rintro rfl
            exact absurd (hgap '%' (by simp)) (by decide)
          simp [hc]
      | paren => simp
  | @value value _ _ hvalue hends h =>
    obtain ⟨p, tail, rfl, -⟩ := hp.head
    have hsigil := (hp.plain p (by simp)).1
    have hp' : p ≠ '%' := by
      rintro rfl
      exact absurd hsigil (by decide)
    cases value with
    | nil => exact absurd rfl hvalue.1
    | cons c value =>
      have hc : c ≠ '%' := by
        rintro rfl
        exact absurd (hvalue.not_isSigil '%' (by simp)) (by decide)
      simp [hp', hc]

end HiddenWord

/-! ### Last words -/

/-- If a word ends in front of a text, it ends in front of the beginning of that text. -/
theorem endsWord_of_isPrefix {cs ds : List Char} (h : Immediate.endsWord cs = true)
    (hpre : ds <+: cs) : Immediate.endsWord ds = true := by
  cases ds with
  | nil => rfl
  | cons d ds =>
    obtain ⟨rest, rfl⟩ := hpre
    exact h

/-- A value has no commas. -/
theorem IsValue.ne_comma {value : List Char} (h : IsValue value) :
    ∀ c ∈ value, (c == ',') = false := by
  intro c hc
  rcases h.2 c hc with rfl | hd
  · decide
  · rw [beq_eq_false_iff_ne]
    rintro rfl
    exact absurd hd (by decide)

/-- What stands in front of a value has no commas, and neither has what stands there afterwards. -/
theorem Lead.ne_comma {lead lead' : List Char} (h : Lead form lead lead') :
    (∀ c ∈ lead, (c == ',') = false) ∧ ∀ c ∈ lead', (c == ',') = false := by
  cases h with
  | blanks hne hgap =>
    refine ⟨fun c hc => ?_, forall_mem_of_all (by decide)⟩
    rw [beq_eq_false_iff_ne]
    rintro rfl
    exact absurd (hgap ',' hc) (by decide)
  | paren => exact ⟨forall_mem_of_all (by decide), forall_mem_of_all (by decide)⟩

/-- A placeholder has no commas. -/
theorem Inert.ne_comma (hp : Inert placeholder) : ∀ c ∈ placeholder, (c == ',') = false := by
  intro c hc
  rw [beq_eq_false_iff_ne]
  exact (hp.plain c hc).2.2.1

/-- Commas at the end can be trimmed before values are hidden or afterwards. -/
theorem Hidden.trimCommas (hp : Inert placeholder) (h : Hidden form placeholder xs ys) :
    Hidden form placeholder (trimEndOf (· == ',') xs) (trimEndOf (· == ',') ys) := by
  induction h with
  | nil => exact .nil
  | char c h ih =>
    rw [trimEndOf_cons, trimEndOf_cons, ih.isEmpty_eq hp]
    split
    · exact .nil
    · exact .char c ih
  | value hlead hvalue hends h ih =>
    rw [trimEndOf_append hlead.ne_comma.1, trimEndOf_append hvalue.ne_comma,
      trimEndOf_append hlead.ne_comma.2, trimEndOf_append hp.ne_comma]
    exact .value hlead hvalue (endsWord_of_isPrefix hends (trimEndOf_isPrefix _ _)) ih

/-- Commas at the end of a word can be trimmed before values are hidden or afterwards. -/
theorem HiddenWord.trimCommas (hp : Inert placeholder) (h : HiddenWord form placeholder w w') :
    HiddenWord form placeholder (trimEndOf (· == ',') w) (trimEndOf (· == ',') w') := by
  cases h with
  | within h => exact .within (h.trimCommas hp)
  | value hvalue hends h =>
    rw [trimEndOf_append hvalue.ne_comma, trimEndOf_append hp.ne_comma]
    exact .value hvalue (endsWord_of_isPrefix hends (trimEndOf_isPrefix _ _)) (h.trimCommas hp)

/-- Of lists whose items are related one by one, the last items are related. -/
theorem getLast?_forall₂ {α β : Type} {R : α → β → Prop} {as : List α} {bs : List β}
    (h : List.Forall₂ R as bs) : Option.Rel R as.getLast? bs.getLast? := by
  induction h with
  | nil => exact .none
  | @cons a b as bs hab h ih =>
    cases h with
    | nil => exact .some hab
    | cons => simpa using ih

/-- The last word of a text and of what hiding makes of it. -/
theorem Hidden.lastToken (hp : Inert placeholder) (h : Hidden form placeholder xs ys) :
    HiddenWord form placeholder (lastToken xs) (lastToken ys) := by
  rw [lastToken_eq, lastToken_eq]
  refine HiddenWord.trimCommas hp ?_
  have hrel := getLast?_forall₂ (h.words hp)
  generalize (Text.words xs).getLast? = last at hrel
  generalize (Text.words ys).getLast? = last' at hrel
  cases hrel with
  | none => exact .within .nil
  | some h => exact h

/-! ### Equals signs -/

/-- Hiding leaves the text in front of an equals sign in its place. -/
theorem Hidden.takeWhile_assigned (hp : Inert placeholder) (h : Hidden form placeholder xs ys) :
    Hidden form placeholder (xs.takeWhile fun c => !(c == '='))
        (ys.takeWhile fun c => !(c == '=')) ∧
      ys.any (· == '=') = xs.any (· == '=') := by
  induction h with
  | nil => exact ⟨.nil, rfl⟩
  | char c h ih =>
    cases hc : c == '=' with
    | true => simp [hc, Hidden.nil]
    | false => simpa [hc] using ⟨Hidden.char c ih.1, ih.2⟩
  | @value lead lead' value xs ys hlead hvalue hends h ih =>
    have hleads : (∀ c ∈ lead, (c == '=') = false) ∧ ∀ c ∈ lead', (c == '=') = false := by
      cases hlead with
      | blanks hne hgap =>
        refine ⟨fun c hc => ?_, forall_mem_of_all (by decide)⟩
        rw [beq_eq_false_iff_ne]
        rintro rfl
        exact absurd (hgap '=' hc) (by decide)
      | paren => exact ⟨forall_mem_of_all (by decide), forall_mem_of_all (by decide)⟩
    have hvalues : ∀ c ∈ value, (c == '=') = false := by
      intro c hc
      rw [beq_eq_false_iff_ne]
      rintro rfl
      rcases hvalue.2 '=' hc with h | h
      · simp at h
      · exact absurd h (by decide)
    have hplain : ∀ c ∈ placeholder, (c == '=') = false := fun c hc =>
      beq_eq_false_iff_ne.mpr (hp.plain c hc).2.2.2.1
    have htake {run : List Char} (hrun : ∀ c ∈ run, (c == '=') = false) (cs : List Char) :
        (run ++ cs).takeWhile (fun c => !(c == '=')) = run ++ cs.takeWhile fun c => !(c == '=') :=
      List.takeWhile_append_of_pos fun c hc => by simp [hrun c hc]
    have hany {run : List Char} (hrun : ∀ c ∈ run, (c == '=') = false) (cs : List Char) :
        (run ++ cs).any (· == '=') = cs.any (· == '=') := by
      rw [List.any_append, List.any_eq_false.mpr fun c hc => by simp [hrun c hc], Bool.false_or]
    rw [htake hleads.1, htake hvalues, htake hleads.2, htake hplain, hany hleads.1, hany hvalues,
      hany hleads.2, hany hplain]
    exact ⟨.value hlead hvalue (endsWord_of_isPrefix hends (List.takeWhile_prefix _)) ih.1, ih.2⟩

end

end InstrGraph.Text

import InstrGraph.Proofs.Text.HiddenWords
import InstrGraph.Proofs.Text.Reach

/-!
# Words without attributes

Hiding constants changes a word at its beginning, where a typed value may stand, and where it opens
an attribute (`OpensAttribute`). A word that begins like an identifier and opens none is still the
last word of a text whose constants are hidden (`lastToken_hideImmediates`), whatever stands for
these, and a text of one word that opens none stays as it is (`hideImmediates_eq_self`).

Renaming identifiers opens no attribute, if their new names end in digits
(`OpensAttribute.of_mapIdentifiers`).
-/

namespace InstrGraph.Text

/-- Somewhere in the text the word of an attribute stands in front of a bracket. -/
def OpensAttribute (cs : List Char) : Prop :=
  ∃ word ∈ Immediate.attributeWords, word ++ ['('] <:+: cs

instance (cs : List Char) : Decidable (OpensAttribute cs) :=
  inferInstanceAs (Decidable (∃ word ∈ Immediate.attributeWords, word ++ ['('] <:+: cs))

section

variable {form : ImmediateForm} {keep : List Char → Bool} {placeholder : List Char}
  {cs xs ys w : List Char} {m : Immediate}

/-! ### Attributes of a text -/

/-- What a part of a text opens, the text opens. -/
theorem OpensAttribute.of_isInfix (h : OpensAttribute xs) (hinside : xs <:+: ys) :
    OpensAttribute ys := by
  obtain ⟨word, hword, hin⟩ := h
  exact ⟨word, hword, hin.trans hinside⟩

/-- Without brackets no attribute is opened. -/
theorem not_opensAttribute_of_not_mem (h : '(' ∉ cs) : ¬ OpensAttribute cs := by
  rintro ⟨word, -, hinside⟩
  exact h (hinside.mem (by simp))

/-- An identifier opens no attribute. -/
theorem not_opensAttribute_of_isIdentifier (h : isIdentifier cs = true) : ¬ OpensAttribute cs :=
  not_opensAttribute_of_not_mem fun hmem => (HiddenWord.not_mem_identifier h '(' hmem).2 rfl

/-- An attribute that has a value is opened. -/
theorem Immediate.Shape.opensAttribute (hm : m.Shape) (hf : m.form = .dereferenceable) :
    OpensAttribute m.chars := by
  cases hm with
  | typed => cases hf
  | @dereferenceable word digits hword hdigits hdigit =>
    exact ⟨word, hword, [], digits ++ [')'], by simp [Immediate.chars, Immediate.closing]⟩

/-- Commas behind a text do not matter. -/
theorem OpensAttribute.of_append_commas {commas : List Char} (h : OpensAttribute (cs ++ commas))
    (hcommas : ∀ c ∈ commas, (c == ',') = true) : OpensAttribute cs := by
  have hbracket : '(' ∉ commas := fun hmem => by simpa using hcommas '(' hmem
  obtain ⟨word, hword, front, back, heq⟩ := h
  refine ⟨word, hword, ?_⟩
  have hcut : (front ++ word) ++ ('(' :: back) = cs ++ commas := by simpa using heq
  rcases List.append_eq_append_iff.mp hcut with ⟨rest, rfl, hrest⟩ | ⟨rest, -, rfl⟩
  · cases rest with
    | nil =>
      rw [List.nil_append] at hrest
      exact absurd (hrest ▸ List.mem_cons_self) hbracket
    | cons c rest =>
      obtain ⟨rfl, -⟩ := List.cons.inj hrest
      exact ⟨front, rest, by simp⟩
  · exact absurd (by simp) hbracket

/-! ### Runs -/

/-- The last run of a text is the last one of any text that it ends. -/
theorem getLast?_wordsOpen_append (h : (wordsOpen cs).2.getLast? = some w) (before : List Char) :
    (wordsOpen (before ++ cs)).2.getLast? = some w := by
  induction before with
  | nil => exact h
  | cons c before ih =>
    rw [List.cons_append, wordsOpen]
    generalize wordsOpen (before ++ cs) = opened at ih
    obtain ⟨run, runs⟩ := opened
    cases isBlank c with
    | false => exact ih
    | true =>
      simp only [if_true]
      split
      · exact ih
      · simp only at ih
        rw [List.getLast?_cons, ih]
        rfl

/-- The last run behind the first blank is the last word. -/
theorem getLast?_words_of_wordsOpen (h : (wordsOpen cs).2.getLast? = some w) :
    (words cs).getLast? = some w := by
  rw [words]
  dsimp only
  split
  · exact h
  · rw [List.getLast?_cons, h]
    rfl

/-- The last word of a text is its last run, or else the run that is open. -/
theorem getLast?_words_cases (h : (words cs).getLast? = some w) :
    (wordsOpen cs).2 = [] ∧ (wordsOpen cs).1 = w ∨ (wordsOpen cs).2.getLast? = some w := by
  rw [words] at h
  dsimp only at h
  split at h
  · exact Or.inr h
  · cases hruns : (wordsOpen cs).2 with
    | nil => exact Or.inl ⟨rfl, by simpa [hruns] using h⟩
    | cons r rs => exact Or.inr (by rwa [hruns, List.getLast?_cons_cons] at h)

namespace Immediate.Shape

/-- A typed immediate ends a run, and its value begins the next one. -/
theorem wordsOpen_typed (hm : m.Shape) (hf : m.form = .typed) (rest : List Char) :
    ∃ c value, isSigil c = false ∧ (wordsOpen (m.chars ++ rest)).2 =
      (c :: (value ++ (wordsOpen rest).1)) :: (wordsOpen rest).2 := by
  have hvalue := hm.isInteger.isValue
  cases hm with
  | dereferenceable => cases hf
  | @typed width gap sign digits hwidth hwidthDigit hgap hgapBlank hsign hdigits hdigit =>
    have hwidth : ∀ c ∈ 'i' :: width, isBlank c = false :=
      List.forall_mem_cons.mpr
        ⟨by decide, fun c hc => isBlank_of_isWord (isWord_of_isDigit (hwidthDigit c hc))⟩
    have hchars : chars ⟨.typed, 'i' :: width, gap, sign ++ digits⟩ ++ rest =
        ('i' :: width) ++ (gap ++ ((sign ++ digits) ++ rest)) := by simp [chars, closing]
    rw [hchars, wordsOpen_append hwidth, wordsOpen_blanks_append hgap hgapBlank,
      words_append_of_not_isBlank hvalue.1 hvalue.not_isBlank]
    obtain ⟨c, value, heq⟩ := List.exists_cons_of_ne_nil hvalue.1
    exact ⟨c, value, hvalue.not_isSigil c (heq ▸ List.mem_cons_self), by rw [heq]; rfl⟩

/-- An attribute is a part of one word. -/
theorem wordsOpen_dereferenceable (hm : m.Shape) (hf : m.form = .dereferenceable)
    (rest : List Char) :
    wordsOpen (m.chars ++ rest) = (m.chars ++ (wordsOpen rest).1, (wordsOpen rest).2) := by
  refine wordsOpen_append (fun c hc => ?_) rest
  cases hm with
  | typed => cases hf
  | @dereferenceable word digits hword hdigits hdigit =>
    simp only [chars, closing, List.mem_append, List.mem_singleton] at hc
    rcases hc with ((hc | rfl) | hc) | rfl
    · exact isBlank_of_isWord (isWord_of_mem_attributeWords hword c hc).1
    · decide
    · exact isBlank_of_isWord (isWord_of_isDigit (hdigit c hc))
    · decide

end Immediate.Shape

/-! ### Hiding -/

/-- Nothing is hidden in a text of one word that opens no attribute. -/
theorem hideFrom_eq_self_of_wordsOpen : ∀ b cs, (wordsOpen cs).2 = [] →
    ¬ OpensAttribute (wordsOpen cs).1 → hideFrom form keep placeholder b cs = cs := by
  refine spansFrom_induction form (fun _ _ _ => rfl) (fun b c cs hnone ih hruns hattr => ?_)
    (fun m rest hread ih hruns hattr => ?_)
  · rw [hideFrom_of_read_none hnone]
    rw [wordsOpen] at hruns hattr
    generalize wordsOpen cs = opened at hruns hattr ih
    obtain ⟨run, runs⟩ := opened
    refine congrArg (List.cons c) ?_
    cases hc : isBlank c with
    | false =>
      simp only [hc, Bool.false_eq_true, if_false] at hruns hattr
      exact ih hruns fun h => hattr (h.of_isInfix (List.suffix_cons c run).isInfix)
    | true =>
      simp only [hc, if_true] at hruns
      split at hruns
      · rename_i hempty
        refine ih hruns (not_opensAttribute_of_not_mem ?_)
        simp [List.isEmpty_iff.mp hempty]
      · simp at hruns
  · exfalso
    obtain ⟨hf, hshape, -⟩ := Immediate.read_eq_some_iff.mp hread
    cases form with
    | typed =>
      obtain ⟨c, value, -, hopen⟩ := hshape.wordsOpen_typed hf rest
      simp [hopen] at hruns
    | dereferenceable =>
      rw [hshape.wordsOpen_dereferenceable hf rest] at hattr
      exact hattr ((hshape.opensAttribute hf).of_isInfix (List.prefix_append _ _).isInfix)

/-- A text of one word that opens no attribute stays as it is. -/
theorem hideImmediates_eq_self (hblank : ∀ c ∈ cs, isBlank c = false)
    (hattr : ¬ OpensAttribute cs) : hideImmediates form keep placeholder cs = cs := by
  have hopen : wordsOpen cs = (cs, []) := by
    have := wordsOpen_append hblank []
    simpa [wordsOpen] using this
  rw [hideImmediates_eq]
  exact hideFrom_eq_self_of_wordsOpen false cs (by rw [hopen]) (by rwa [hopen])

/-- A last run that begins like an identifier and opens no attribute stays the last one. -/
theorem getLast?_wordsOpen_hideFrom (hhead : ∀ c ∈ w.head?, isSigil c = true)
    (hattr : ¬ OpensAttribute w) : ∀ b cs, (wordsOpen cs).2.getLast? = some w →
    (wordsOpen (hideFrom form keep placeholder b cs)).2.getLast? = some w := by
  refine spansFrom_induction form (fun _ h => h) (fun b c cs hnone ih hw => ?_)
    (fun m rest hread ih hw => ?_)
  · rw [hideFrom_of_read_none hnone]
    rw [wordsOpen] at hw
    cases hc : isBlank c with
    | false =>
      simp only [hc, Bool.false_eq_true, if_false] at hw
      exact getLast?_wordsOpen_append (ih hw) [c]
    | true =>
      simp only [hc, if_true] at hw
      have hlast : (words cs).getLast? = some w := hw
      rcases getLast?_words_cases hlast with ⟨hruns, hrun⟩ | hlast
      · -- the word has been open, and the blank closes it in both texts
        rw [hideFrom_eq_self_of_wordsOpen _ cs hruns (hrun ▸ hattr), wordsOpen]
        simp only [hc, if_true]
        exact hw
      · exact getLast?_wordsOpen_append (ih hlast) [c]
  · obtain ⟨hf, hshape, -⟩ := Immediate.read_eq_some_iff.mp hread
    have hlast : (wordsOpen rest).2.getLast? = some w := by
      cases form with
      | dereferenceable => rwa [hshape.wordsOpen_dereferenceable hf rest] at hw
      | typed =>
        obtain ⟨c, value, hsigil, hopen⟩ := hshape.wordsOpen_typed hf rest
        rw [hopen] at hw
        cases hruns : (wordsOpen rest).2 with
        | cons r rs => rwa [hruns, List.getLast?_cons_cons] at hw
        | nil =>
          -- the value itself would begin the word
          rw [hruns, List.getLast?_singleton] at hw
          rw [hhead c (by simp [← Option.some.inj hw])] at hsigil
          simp at hsigil
    rw [hideFrom_of_read hread]
    exact getLast?_wordsOpen_append (ih hlast) _

/-- A last word that begins like an identifier and opens no attribute stays the last word, whatever
stands for the constants. -/
theorem lastToken_hideImmediates
    (hsigil : ∃ c, (lastToken cs).head? = some c ∧ isSigil c = true)
    (hattr : ¬ OpensAttribute (lastToken cs)) :
    lastToken (hideImmediates form keep placeholder cs) = lastToken cs := by
  obtain ⟨c, hc, hsigil⟩ := hsigil
  rw [lastToken_eq] at hc hattr
  cases hlast : (words cs).getLast? with
  | none => simp [hlast, trimEndOf] at hc
  | some w =>
    rw [hlast, Option.getD_some] at hc hattr
    obtain ⟨commas, hcommas, hall⟩ := exists_eq_trimEndOf_append (· == ',') w
    have hhead : ∀ d ∈ w.head?, isSigil d = true := by
      intro d hd
      rw [hcommas, List.head?_append, hc, Option.some_or, Option.mem_some_iff] at hd
      exact hd ▸ hsigil
    have hattr : ¬ OpensAttribute w := by
      rw [hcommas]
      exact fun h => hattr (h.of_append_commas hall)
    have hlast' : (words (hideImmediates form keep placeholder cs)).getLast? = some w := by
      rw [hideImmediates_eq]
      rcases getLast?_words_cases hlast with ⟨hruns, hrun⟩ | hrun
      · rw [hideFrom_eq_self_of_wordsOpen false cs hruns (hrun ▸ hattr), hlast]
      · exact getLast?_words_of_wordsOpen (getLast?_wordsOpen_hideFrom hhead hattr false cs hrun)
    rw [lastToken_eq, lastToken_eq, hlast, hlast']

end

/-! ### Renaming -/

section

variable {g : List Char → List Char} {cs : List Char}

/-- What a renamed text ends in, the text ends in, if it has no sigils and no digits. -/
theorem suffix_render_of_mapIdent {w : List Char}
    (hw : ∀ c ∈ w, isSigil c = false ∧ isDigit c = false) {ps : List Piece}
    (hg : ∀ p ∈ ps, ∀ t, p.ident? = some t →
      isIdentifier (g t) = true ∧ (g t = t ∨ ∃ d ∈ (g t).getLast?, isDigit d = true))
    (h : w <:+ render (ps.map (Piece.mapIdent g))) : w <:+ render ps := by
  induction ps using List.reverseRecOn generalizing w with
  | nil => exact h
  | append_singleton ps p ih =>
    have hrender (qs : List Piece) (q : Piece) : render (qs ++ [q]) = render qs ++ q.chars := by
      simp [render, List.flatMap_append]
    rw [List.map_append, List.map_singleton, hrender] at h
    rw [hrender]
    rcases List.eq_nil_or_concat' w with rfl | ⟨v, c, rfl⟩
    · exact List.nil_suffix
    · cases p with
      | other d =>
        obtain ⟨before, hbefore⟩ := h
        rw [← List.append_assoc] at hbefore
        have hcut : before ++ v ++ [c] = render (ps.map (Piece.mapIdent g)) ++ [d] := hbefore
        obtain ⟨hfront, hlast⟩ := List.append_inj' hcut rfl
        obtain rfl := List.singleton_injective hlast
        obtain ⟨before, heq⟩ := ih (fun e he => hw e (List.mem_append_left _ he))
          (fun q hq => hg q (List.mem_append_left _ hq)) ⟨_, hfront⟩
        exact ⟨before, by rw [← heq, List.append_assoc]; rfl⟩
      | ident s n =>
        obtain ⟨hident, hg⟩ := hg (.ident s n) (by simp) (s :: n) rfl
        rw [Piece.chars_mapIdent_ident hident] at h
        rcases hg with heq | ⟨d, hd, hdigit⟩
        · -- the sigil is not in the end of the text, so all of that is in the identifier
          rw [heq] at h
          rcases List.suffix_or_suffix_of_suffix h (List.suffix_append _ _) with hin | hin
          · exact hin.trans (List.suffix_append _ _)
          · have hsigil := (hw s (hin.mem List.mem_cons_self)).1
            rw [(isIdentifier_cons.mp (heq ▸ hident)).1] at hsigil
            simp at hsigil
        · obtain ⟨before, hbefore⟩ := h
          have hlast := congrArg List.getLast? hbefore
          rw [← List.append_assoc, List.getLast?_concat,
            List.getLast?_append_of_ne_nil _ (ne_nil_of_isIdentifier hident), hd] at hlast
          have hplain := (hw c (by simp)).2
          rw [Option.some.inj hlast, hdigit] at hplain
          simp at hplain

/-- A bracket of a renamed text stands between the same pieces as in the text. -/
theorem exists_pieces_of_bracket {ps : List Piece}
    (hg : ∀ p ∈ ps, ∀ t, p.ident? = some t → isIdentifier (g t) = true) {xs ys : List Char}
    (h : render (ps.map (Piece.mapIdent g)) = xs ++ '(' :: ys) :
    ∃ front back, ps = front ++ .other '(' :: back ∧
      xs = render (front.map (Piece.mapIdent g)) := by
  induction ps generalizing xs with
  | nil => simp at h
  | cons p ps ih =>
    obtain ⟨hp, hps⟩ := List.forall_mem_cons.mp hg
    rw [List.map_cons, render_cons] at h
    cases p with
    | other c =>
      cases xs with
      | nil =>
        obtain ⟨rfl, -⟩ := List.cons.inj h
        exact ⟨[], ps, rfl, rfl⟩
      | cons x xs =>
        obtain ⟨rfl, htail⟩ := List.cons.inj h
        obtain ⟨front, back, rfl, rfl⟩ := ih hps htail
        exact ⟨.other c :: front, back, rfl, by simp [Piece.mapIdent, Piece.chars]⟩
    | ident s n =>
      have hident := hp (s :: n) rfl
      rw [Piece.chars_mapIdent_ident hident] at h
      have hxs : ∃ rest, xs = g (s :: n) ++ rest := by
        rcases List.append_eq_append_iff.mp h with ⟨rest, rfl, -⟩ | ⟨rest, hrest, hback⟩
        · exact ⟨rest, rfl⟩
        · cases rest with
          | nil => exact ⟨[], by simpa using hrest.symm⟩
          | cons c rest =>
            obtain ⟨rfl, -⟩ := List.cons.inj hback
            exact absurd rfl (HiddenWord.not_mem_identifier hident '(' (by simp [hrest])).2
      obtain ⟨rest, rfl⟩ := hxs
      rw [List.append_assoc] at h
      obtain ⟨front, back, rfl, rfl⟩ := ih hps (List.append_cancel_left h)
      exact ⟨.ident s n :: front, back, rfl, by
        rw [List.map_cons, render_cons, Piece.chars_mapIdent_ident hident]⟩

/-- Renaming opens no attribute, if an identifier keeps its name or gets one that ends in a
digit. -/
theorem OpensAttribute.of_mapIdentifiers (hg : KeepsIdentifiers g cs)
    (hdigit : ∀ t ∈ identifiers cs, g t = t ∨ ∃ d ∈ (g t).getLast?, isDigit d = true)
    (h : OpensAttribute (mapIdentifiers g cs)) : OpensAttribute cs := by
  obtain ⟨word, hword, xs, ys, heq⟩ := h
  have hpieces (p : Piece) (hp : p ∈ pieces cs) (t : List Char) (ht : p.ident? = some t) :
      isIdentifier (g t) = true ∧ (g t = t ∨ ∃ d ∈ (g t).getLast?, isDigit d = true) :=
    have hident : t ∈ identifiers cs := mem_identifiers_iff.mpr ⟨p, hp, ht⟩
    ⟨hg t hident, hdigit t hident⟩
  have hplain : ∀ c ∈ word, isSigil c = false ∧ isDigit c = false := by
    intro c hc
    obtain ⟨hchar, hdigit⟩ := Immediate.isWord_of_mem_attributeWords hword c hc
    exact ⟨not_isSigil_of_isNameChar (by simp [isNameChar, hchar]), hdigit⟩
  have hcut : render ((pieces cs).map (Piece.mapIdent g)) = (xs ++ word) ++ '(' :: ys := by
    rw [← mapIdentifiers_eq_render hg, ← heq]
    simp
  obtain ⟨front, back, hps, hfront⟩ :=
    exists_pieces_of_bracket (fun p hp t ht => (hpieces p hp t ht).1) hcut
  have hsuffix : word <:+ render front :=
    suffix_render_of_mapIdent hplain (fun p hp => hpieces p (by simp [hps, hp])) ⟨xs, hfront⟩
  obtain ⟨before, hbefore⟩ := hsuffix
  refine ⟨word, hword, before, render back, ?_⟩
  have htext := render_pieces cs
  rw [hps, render, List.flatMap_append, List.flatMap_cons] at htext
  rw [← htext, ← render, ← hbefore]
  simp [Piece.chars, render]

end

end InstrGraph.Text

import InstrGraph.Proofs.Text.HiddenWords

/-!
# Texts without annotations

A text is `Stripped` if stripping leaves it as it is. What stripping makes of a text without double
quotes is stripped (`stripped_stripAnnotations`), and a stripped text stays so when its identifiers
are renamed (`Stripped.mapIdentifiers`), when constants are hidden (`Stripped.hidden`) and when its
last word is taken (`Stripped.lastToken`): nothing of this brings up an attachment.
-/

namespace InstrGraph.Text

/-! ### Attachments -/

section

variable {c : Char} {xs ys zs : List Char}

/-- An attachment opens with an exclamation mark, blanks in front of it not counted. -/
theorem opensAttachment_cons (c : Char) (cs : List Char) :
    opensAttachment (c :: cs) = if isBlank c then opensAttachment cs else c == '!' := by
  rw [opensAttachment_eq, opensAttachment_eq]
  cases h : isBlank c with
  | true => rw [List.dropWhile_cons_of_pos h, if_pos rfl]
  | false => rw [List.dropWhile_cons_of_neg (by simp [h])]; rfl

/-- A text that opens an attachment does so whatever follows it. -/
theorem opensAttachment_append (h : opensAttachment xs = true) (ys : List Char) :
    opensAttachment (xs ++ ys) = true := by
  induction xs with
  | nil => exact absurd h (by decide)
  | cons c xs ih =>
    rw [opensAttachment_cons] at h
    rw [List.cons_append, opensAttachment_cons]
    cases hb : isBlank c with
    | true =>
      rw [hb, if_pos rfl] at h
      exact ih h
    | false =>
      rw [hb] at h
      exact h

/-- No attachment begins in a text exactly if none begins at its first character or behind it. -/
theorem cutAttachments_cons_eq_self :
    cutAttachments (c :: xs) = c :: xs ↔
      (c = ',' → opensAttachment xs = false) ∧ cutAttachments xs = xs := by
  rw [cutAttachments]
  split
  · rename_i h
    rw [Bool.and_eq_true, beq_iff_eq] at h
    simp [h.1, h.2]
  · rename_i h
    rw [Bool.and_eq_true, beq_iff_eq, not_and, Bool.not_eq_true] at h
    rw [List.cons.injEq]
    exact ⟨fun heq => ⟨h, heq.2⟩, fun heq => ⟨rfl, heq.2⟩⟩

/-- If a text has no attachments, neither of its two parts has. -/
theorem cutAttachments_append_eq_self (h : cutAttachments (xs ++ ys) = xs ++ ys) :
    cutAttachments xs = xs ∧ cutAttachments ys = ys := by
  induction xs with
  | nil => exact ⟨rfl, h⟩
  | cons c xs ih =>
    rw [List.cons_append] at h
    obtain ⟨hcomma, hrest⟩ := cutAttachments_cons_eq_self.mp h
    obtain ⟨hxs, hys⟩ := ih hrest
    refine ⟨cutAttachments_cons_eq_self.mpr ⟨fun hc => ?_, hxs⟩, hys⟩
    by_contra ho
    rw [Bool.not_eq_false] at ho
    have := opensAttachment_append ho ys
    rw [hcomma hc] at this
    exact absurd this (by simp)

/-- If a text has no attachments, no part of it has. -/
theorem cutAttachments_eq_self_of_infix (h : cutAttachments xs = xs) (hy : ys <:+: xs) :
    cutAttachments ys = ys := by
  obtain ⟨before, after, rfl⟩ := hy
  exact (cutAttachments_append_eq_self (cutAttachments_append_eq_self h).1).2

/-- Cutting off attachments leaves a beginning of the text. -/
theorem cutAttachments_isPrefix (cs : List Char) : cutAttachments cs <+: cs := by
  induction cs with
  | nil => exact List.prefix_rfl
  | cons c cs ih =>
    rw [cutAttachments]
    split
    · exact List.nil_prefix
    · exact List.cons_prefix_cons.mpr ⟨rfl, ih⟩

/-- What stands before the first attachment has none. -/
theorem cutAttachments_cutAttachments (cs : List Char) :
    cutAttachments (cutAttachments cs) = cutAttachments cs := by
  induction cs with
  | nil => rfl
  | cons c cs ih =>
    rw [cutAttachments]
    split
    · rfl
    · rename_i hno
      refine cutAttachments_cons_eq_self.mpr ⟨fun hc => ?_, ih⟩
      by_contra ho
      rw [Bool.not_eq_false] at ho
      obtain ⟨after, hafter⟩ := cutAttachments_isPrefix cs
      have := opensAttachment_append ho after
      rw [hafter] at this
      simp [hc, this] at hno

end

/-! ### Stripped texts -/

/-- The text has no attachment, no blank at its end and no double quote. -/
structure Stripped (cs : List Char) : Prop where
  unattached : cutAttachments cs = cs
  trimmed : trimEnd cs = cs
  unquoted : '"' ∉ cs

namespace Stripped

variable {form : ImmediateForm} {placeholder cs xs ys : List Char}

/-- A stripped text does not end in a blank. -/
theorem noBlank (h : Stripped cs) : ∀ c ∈ cs.getLast?, isBlank c = false := by
  intro c hc
  rw [← h.trimmed] at hc
  exact trimEndOf_getLast? isBlank cs c hc

/-- Stripping leaves the text as it is. -/
theorem stripAnnotations_eq (h : Stripped cs) : stripAnnotations cs = cs := by
  rw [stripAnnotations, h.unattached, h.trimmed]
  refine List.filter_eq_self.mpr fun c hc => ?_
  rw [decide_eq_true_iff]
  rintro rfl
  exact h.unquoted hc

/-- A part of a stripped text is stripped, if it does not end in a blank. -/
theorem of_isInfix (h : Stripped xs) (hy : ys <:+: xs) (hb : ∀ c ∈ ys.getLast?, isBlank c = false) :
    Stripped ys where
  unattached := cutAttachments_eq_self_of_infix h.unattached hy
  trimmed := trimEndOf_eq_self hb
  unquoted hq := h.unquoted (hy.mem hq)

/-- A text without blanks and commas is stripped. -/
theorem of_forall (hc : ∀ c ∈ cs, isBlank c = false ∧ (c == ',') = false) (hq : '"' ∉ cs) :
    Stripped cs where
  unattached := by
    have := cutAttachments_append (fun c h => (hc c h).2) []
    rw [List.append_nil] at this
    rw [this]
    simp [cutAttachments]
  trimmed := trimEndOf_eq_self fun c h => (hc c (List.mem_of_getLast? h)).1
  unquoted := hq

/-- An identifier is stripped. -/
theorem of_isIdentifier (h : isIdentifier cs = true) : Stripped cs := by
  refine of_forall (fun c hc => ⟨foreign_isBlank cs h c hc, foreign_comma cs h c hc⟩) fun hq => ?_
  have := foreign_beq (d := '"') (by decide) (by decide) cs h _ hq
  simp at this

/-- Renaming brings up no attachment. -/
theorem mapIdentifiers {g : List Char → List Char} (h : Stripped cs) (hg : KeepsIdentifiers g cs) :
    Stripped (mapIdentifiers g cs) where
  unattached := by rw [Cut.attachments.mapIdentifiers hg, h.unattached]
  trimmed := by
    rw [trimEnd, (Cut.trimEndOf foreign_isBlank).mapIdentifiers hg, ← trimEnd, h.trimmed]
  unquoted hq := by
    have hany := any_mapIdentifiers hg (p := (· == '"')) (foreign_beq (by decide) (by decide))
    have hsome : cs.any (· == '"') = true := by
      rw [← hany]
      exact List.any_eq_true.mpr ⟨_, hq, by decide⟩
    obtain ⟨c, hc, heq⟩ := List.any_eq_true.mp hsome
    exact h.unquoted (beq_iff_eq.mp heq ▸ hc)

end Stripped

section

variable {cs : List Char} (hq : '"' ∉ cs)

include hq

/-- Without double quotes, stripping leaves the beginning of a text. -/
theorem stripAnnotations_eq_trimEnd : stripAnnotations cs = trimEnd (cutAttachments cs) := by
  rw [stripAnnotations]
  refine List.filter_eq_self.mpr fun c hc => ?_
  rw [decide_eq_true_iff]
  rintro rfl
  exact hq ((cutAttachments_isPrefix cs).mem ((trimEndOf_isPrefix _ _).mem hc))

/-- Stripping a text without double quotes leaves a beginning of it. -/
theorem stripAnnotations_isPrefix : stripAnnotations cs <+: cs := by
  rw [stripAnnotations_eq_trimEnd hq]
  exact (trimEndOf_isPrefix _ _).trans (cutAttachments_isPrefix cs)

/-- What stripping leaves of a text without double quotes is stripped. -/
theorem stripped_stripAnnotations : Stripped (stripAnnotations cs) where
  unattached := by
    rw [stripAnnotations_eq_trimEnd hq]
    exact cutAttachments_eq_self_of_infix (cutAttachments_cutAttachments cs)
      (trimEndOf_isPrefix _ _).isInfix
  trimmed := by
    rw [stripAnnotations_eq_trimEnd hq]
    exact trimEndOf_eq_self (trimEndOf_getLast? isBlank _)
  unquoted h := hq ((stripAnnotations_isPrefix hq).mem h)

end

/-! ### Hiding -/

section

variable {form : ImmediateForm} {placeholder xs ys : List Char}

/-- Hiding values does not open an attachment. -/
theorem Hidden.opensAttachment (hp : Inert placeholder) (h : Hidden form placeholder xs ys)
    (ho : opensAttachment ys = true) : opensAttachment xs = true := by
  induction h with
  | nil => exact ho
  | char c h ih =>
    rw [opensAttachment_cons] at ho ⊢
    cases hb : isBlank c with
    | true =>
      rw [hb, if_pos rfl] at ho
      exact ih ho
    | false =>
      rw [hb] at ho
      exact ho
  | value hlead hvalue hends h ih =>
    obtain ⟨p, tail, rfl, -, -, hne⟩ := hp.head
    have hblank := (hp.plain p (by simp)).2.1
    cases hlead with
    | blanks => simp [opensAttachment_cons, hblank, hne, show isBlank ' ' = true by decide] at ho
    | paren => simp [opensAttachment_cons, show isBlank '(' = false by decide] at ho

/-- Hiding values brings no attachments. -/
theorem Hidden.unattached (hp : Inert placeholder) (h : Hidden form placeholder xs ys)
    (hx : cutAttachments xs = xs) : cutAttachments ys = ys := by
  induction h with
  | nil => rfl
  | char c h ih =>
    obtain ⟨hcomma, hrest⟩ := cutAttachments_cons_eq_self.mp hx
    refine cutAttachments_cons_eq_self.mpr ⟨fun hc => ?_, ih hrest⟩
    by_contra ho
    rw [Bool.not_eq_false] at ho
    have := h.opensAttachment hp ho
    rw [hcomma hc] at this
    exact absurd this (by simp)
  | value hlead hvalue hends h ih =>
    rw [cutAttachments_append hlead.ne_comma.2, cutAttachments_append hp.ne_comma,
      ih (cutAttachments_append_eq_self (cutAttachments_append_eq_self hx).2).2]

/-- Hiding values brings no blanks at the end. -/
theorem Hidden.noBlank (hp : Inert placeholder) (h : Hidden form placeholder xs ys)
    (hx : ∀ c ∈ xs.getLast?, isBlank c = false) : ∀ c ∈ ys.getLast?, isBlank c = false := by
  have hempty {xs ys : List Char} (h : Hidden form placeholder xs ys) : ys = [] ↔ xs = [] := by
    rw [← List.isEmpty_iff, h.isEmpty_eq hp, List.isEmpty_iff]
  induction h with
  | nil => exact hx
  | @char c xs ys h ih =>
    by_cases hnil : xs = []
    · rw [hnil] at hx
      rw [(hempty h).mpr hnil]
      exact hx
    · have hnil' : ys ≠ [] := fun hy => hnil ((hempty h).mp hy)
      rw [← List.singleton_append, List.getLast?_append_of_ne_nil _ hnil] at hx
      rw [← List.singleton_append, List.getLast?_append_of_ne_nil _ hnil']
      exact ih hx
  | @value lead lead' value xs ys hlead hvalue hends h ih =>
    by_cases hnil : xs = []
    · rw [(hempty h).mpr hnil, List.append_nil, List.getLast?_append_of_ne_nil _ hp.ne_nil]
      exact fun c hc => (hp.plain c (List.mem_of_getLast? hc)).2.1
    · have hnil' : ys ≠ [] := fun hy => hnil ((hempty h).mp hy)
      rw [← List.append_assoc, List.getLast?_append_of_ne_nil _ hnil] at hx
      rw [← List.append_assoc, List.getLast?_append_of_ne_nil _ hnil']
      exact ih hx

/-- Hiding values brings no characters but spaces and those of the placeholder. -/
theorem Hidden.mem (h : Hidden form placeholder xs ys) {c : Char} (hc : c ∈ ys) :
    c ∈ xs ∨ c = ' ' ∨ c ∈ placeholder := by
  induction h with
  | nil => exact Or.inl hc
  | char d h ih =>
    rcases List.mem_cons.mp hc with rfl | hc
    · exact Or.inl List.mem_cons_self
    · exact (ih hc).imp_left (List.mem_cons_of_mem _)
  | value hlead hvalue hends h ih =>
    rcases List.mem_append.mp hc with hc | hc
    · cases hlead with
      | blanks => exact Or.inr (Or.inl (List.mem_singleton.mp hc))
      | paren => exact Or.inl (List.mem_append_left _ hc)
    · rcases List.mem_append.mp hc with hc | hc
      · exact Or.inr (Or.inr hc)
      · exact (ih hc).imp_left fun hx => List.mem_append_right _ (List.mem_append_right _ hx)

/-- Hiding brings up no attachment. -/
theorem Stripped.hidden (hp : Inert placeholder) (h : Hidden form placeholder xs ys)
    (hx : Stripped xs) : Stripped ys where
  unattached := h.unattached hp hx.unattached
  trimmed := trimEndOf_eq_self (h.noBlank hp hx.noBlank)
  unquoted hq := by
    rcases h.mem hq with hq | hq | hq
    · exact hx.unquoted hq
    · exact absurd hq (by decide)
    · exact (hp.plain _ hq).2.2.2.2 rfl

end

/-! ### Last words -/

/-- The last word of a stripped text is stripped. -/
theorem Stripped.lastToken {cs : List Char} (h : Stripped cs) : Stripped (lastToken cs) :=
  h.of_isInfix (Cut.lastToken.apply_infix cs) fun c hc =>
    not_isBlank_of_mem_lastToken cs c (List.mem_of_getLast? hc)

end InstrGraph.Text

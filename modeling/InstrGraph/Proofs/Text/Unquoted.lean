import InstrGraph.Proofs.Text.Symbols
import InstrGraph.Proofs.Text.Words
import InstrGraph.Text.Annotation

/-!
# Identifiers behind double quotes

Annotations are stripped and last words are taken before the double quotes are left out, and a name
in quotes is no identifier until then. What is cut off ends in front of a blank or a comma
(`Stretch`), so leaving out the quotes of the part brings up only identifiers of the whole text
without its quotes (`Stretch.identifiers_unquote`).
-/

namespace InstrGraph

namespace Text

/-- The text without double quotes. -/
def unquote (cs : List Char) : List Char := cs.filter (· ≠ '"')

/-- Dropping the quotes of two texts, one after the other. -/
theorem unquote_append (xs ys : List Char) : unquote (xs ++ ys) = unquote xs ++ unquote ys :=
  List.filter_append ..

/-- Characters that are no quotes stay when quotes are dropped. -/
theorem unquote_cons_of_ne {c : Char} (h : c ≠ '"') (cs : List Char) :
    unquote (c :: cs) = c :: unquote cs := by simp [unquote, h]

/-- The identifiers at the end of a text are identifiers of the text. -/
theorem identifiers_append_right (xs ys : List Char) :
    identifiers ys ⊆ identifiers (xs ++ ys) := by
  induction xs with
  | nil => exact List.Subset.refl _
  | cons c xs ih =>
    rw [List.cons_append, identifiers_cons]
    split
    · exact List.subset_cons_of_subset _ ih
    · exact ih

/-- So are those at its beginning, if what follows does not go on with a name. -/
theorem identifiers_append_left (xs : List Char) {ys : List Char}
    (h : ∀ c ∈ ys.head?, isNameChar c = false) : identifiers xs ⊆ identifiers (xs ++ ys) := by
  have hstop : ys.takeWhile isNameChar = [] := by
    cases ys with
    | nil => rfl
    | cons c ys => exact List.takeWhile_cons_of_neg (by simp [h c rfl])
  induction xs with
  | nil => exact List.nil_subset _
  | cons c xs ih =>
    have hname : (xs ++ ys).takeWhile isNameChar = xs.takeWhile isNameChar := by
      rw [List.takeWhile_append, hstop, List.append_nil]
      split
      · rename_i hall
        exact (List.takeWhile_prefix _).eq_of_length hall |>.symm
      · rfl
    rw [List.cons_append, identifiers_cons, identifiers_cons, hname]
    split
    · exact List.cons_subset_cons _ ih
    · exact ih

/-- Part of a text that ends where an identifier ends, with quotes or without them. -/
def Stretch (xs ys : List Char) : Prop :=
  ∃ before after, ys = before ++ xs ++ after ∧
    ∀ c ∈ after.head?, isNameChar c = false ∧ c ≠ '"'

namespace Stretch

variable {xs ys zs : List Char}

/-- A stretch of a stretch is one of the text. -/
theorem trans (h : Stretch xs ys) (h' : Stretch ys zs) : Stretch xs zs := by
  obtain ⟨before, after, rfl, hend⟩ := h
  obtain ⟨before', after', rfl, hend'⟩ := h'
  refine ⟨before' ++ before, after ++ after', by simp, fun c hc => ?_⟩
  rw [List.head?_append, Option.mem_def, Option.or_eq_some_iff] at hc
  rcases hc with hc | ⟨-, hc⟩
  · exact hend c hc
  · exact hend' c hc

/-- No identifier comes up that the text without quotes does not have. -/
theorem identifiers_unquote (h : Stretch xs ys) :
    identifiers (unquote xs) ⊆ identifiers (unquote ys) := by
  obtain ⟨before, after, rfl, hend⟩ := h
  rw [unquote_append, unquote_append]
  refine List.Subset.trans (identifiers_append_right (unquote before) _)
    (identifiers_append_left _ fun c hc => ?_)
  cases after with
  | nil => simp [unquote] at hc
  | cons d after =>
    rw [unquote_cons_of_ne (hend d rfl).2, List.head?_cons, Option.mem_some_iff] at hc
    exact hc ▸ (hend d rfl).1

/-- Trimming characters that are in no name leaves a stretch of the text. -/
theorem trimEndOf {p : Char → Bool} (hp : ∀ c, p c = true → isNameChar c = false ∧ c ≠ '"')
    (cs : List Char) : Stretch (Text.trimEndOf p cs) cs := by
  obtain ⟨run, heq, hrun⟩ := exists_eq_trimEndOf_append p cs
  exact ⟨[], run, by simpa using heq, fun c hc => hp c (hrun c (List.mem_of_head? hc))⟩

/-- Trimming blanks off the end leaves a stretch of the text. -/
theorem trimEnd (cs : List Char) : Stretch (Text.trimEnd cs) cs := by
  refine trimEndOf (fun c hc => ⟨isNameChar_of_isBlank hc, ?_⟩) cs
  rintro rfl
  exact absurd hc (by decide)

/-- Cutting off attachments leaves a stretch of the text. -/
theorem cutAttachments (cs : List Char) : Stretch (Text.cutAttachments cs) cs := by
  suffices h : ∃ after, cs = Text.cutAttachments cs ++ after ∧ ∀ c ∈ after.head?, c = ',' by
    obtain ⟨after, heq, hend⟩ := h
    refine ⟨[], after, heq, fun c hc => ?_⟩
    rw [hend c hc]
    decide
  induction cs with
  | nil => exact ⟨[], rfl, by simp⟩
  | cons c cs ih =>
    rw [Text.cutAttachments]
    split
    · rename_i hcut
      exact ⟨c :: cs, rfl, by simpa using (Bool.and_eq_true_iff.mp hcut).1⟩
    · obtain ⟨after, heq, hend⟩ := ih
      exact ⟨after, congrArg (c :: ·) heq, hend⟩

/-- The last token is a stretch of the text. -/
theorem lastToken (cs : List Char) : Stretch (Text.lastToken cs) cs := by
  refine .trans ?_ (.trimEnd cs)
  rw [Text.lastToken, ← words_trimEnd]
  cases hw : (words (Text.trimEnd cs)).getLast? with
  | none => exact ⟨Text.trimEnd cs, [], by simp, by simp⟩
  | some w =>
    obtain ⟨before, heq⟩ := suffix_of_getLast?_words (trimEndOf_getLast? isBlank cs) hw
    have hword : Stretch w (Text.trimEnd cs) :=
      ⟨before, [], heq.symm.trans (List.append_nil _).symm, by simp⟩
    refine .trans (.trimEndOf (fun c hc => ?_) w) hword
    rw [beq_iff_eq.mp hc]
    decide

end Stretch

/-- A stripped text has no identifiers but those of the text without quotes. -/
theorem identifiers_stripAnnotations (cs : List Char) :
    identifiers (stripAnnotations cs) ⊆ identifiers (unquote cs) :=
  ((Stretch.trimEnd _).trans (.cutAttachments cs)).identifiers_unquote

end Text

namespace Token

/-- The text without double quotes. -/
def unquote (s : String) : String := onString Text.unquote s

/-- A stripped string has no identifiers but those of the string without quotes. -/
theorem symbols_stripAnnotations (s : String) :
    symbols (stripAnnotations s) ⊆ symbols (unquote s) := by
  intro t ht
  rw [mem_symbols_iff, stripAnnotations, toList_onString] at ht
  rw [mem_symbols_iff, unquote, toList_onString]
  exact Text.identifiers_stripAnnotations _ ht

/-- The last word of a text has no identifiers but those of the text, quotes left out. -/
theorem symbols_unquote_last (s : String) : symbols (unquote (last s)) ⊆ symbols (unquote s) := by
  intro t ht
  rw [mem_symbols_iff, unquote, toList_onString] at ht ⊢
  rw [last, toList_onString] at ht
  exact (Text.Stretch.lastToken _).identifiers_unquote ht

end Token

end InstrGraph

import InstrGraph.Proofs.Text.Stripped
import InstrGraph.Token

/-!
# Stripping twice

Stripping cuts a text at its first attachment, then drops the blanks at its end, and last its double
quotes. Quotes come last, so one that parts a comma from a `!`, or a blank from the end of the text,
hides an attachment or a blank that a second application finds.

`Attached` and `EndsInBlank` say of a text what stripping should leave none of, with characters that
do not count. Dropping quotes is the same as not counting them (`attached_filter`,
`endsInBlank_filter`), which gives the texts that one application is enough for. After a second one
nothing is left to be found.
-/

namespace InstrGraph

namespace Text

variable {cs skipped : List Char}

/-- Behind a comma stands a `!`, and between them only blanks and characters that are skipped. -/
def Attached (skipped cs : List Char) : Prop :=
  ∃ before gap after, cs = before ++ ',' :: (gap ++ '!' :: after) ∧
    ∀ c ∈ gap, isBlank c = true ∨ c ∈ skipped

/-- Behind a blank stand only characters that are skipped. -/
def EndsInBlank (skipped cs : List Char) : Prop :=
  ∃ before c after, cs = before ++ c :: after ∧ isBlank c = true ∧ ∀ d ∈ after, d ∈ skipped

/-- Nothing that stripping looks for is in the text. -/
structure Clean (cs : List Char) : Prop where
  unquoted : '"' ∉ cs
  unattached : ¬ Attached [] cs
  trimmed : ¬ EndsInBlank [] cs

/-! ### What stripping looks for -/

/-- A text opens an attachment if it is an exclamation mark behind blanks, with anything behind
it. -/
theorem opensAttachment_iff :
    opensAttachment cs = true ↔
      ∃ gap after, cs = gap ++ '!' :: after ∧ ∀ c ∈ gap, isBlank c = true := by
  constructor
  · intro h
    induction cs with
    | nil => exact absurd h (by decide)
    | cons c cs ih =>
      rw [opensAttachment_cons] at h
      split at h
      · rename_i hblank
        obtain ⟨gap, after, rfl, hgap⟩ := ih h
        exact ⟨c :: gap, after, rfl, List.forall_mem_cons.mpr ⟨hblank, hgap⟩⟩
      · exact ⟨[], cs, by rw [beq_iff_eq.mp h, List.nil_append], by simp⟩
  · rintro ⟨gap, after, rfl, hgap⟩
    induction gap with
    | nil => rfl
    | cons c gap ih =>
      obtain ⟨hc, hgap⟩ := List.forall_mem_cons.mp hgap
      rw [List.cons_append, opensAttachment_cons, if_pos hc, ih hgap]

/-- An attachment is at the beginning of a text, or further on. -/
theorem attached_cons {c : Char} :
    Attached [] (c :: cs) ↔ (c = ',' ∧ opensAttachment cs = true) ∨ Attached [] cs := by
  rw [opensAttachment_iff]
  constructor
  · rintro ⟨_ | ⟨b, before⟩, gap, after, heq, hgap⟩
    · obtain ⟨rfl, rfl⟩ := List.cons.inj heq
      exact Or.inl ⟨rfl, gap, after, rfl, by simpa using hgap⟩
    · obtain ⟨rfl, rfl⟩ := List.cons.inj heq
      exact Or.inr ⟨before, gap, after, rfl, hgap⟩
  · rintro (⟨rfl, gap, after, rfl, hgap⟩ | ⟨before, gap, after, rfl, hgap⟩)
    · exact ⟨[], gap, after, rfl, by simpa using hgap⟩
    · exact ⟨c :: before, gap, after, rfl, hgap⟩

/-- Cutting off attachments leaves the texts alone that have none. -/
theorem cutAttachments_eq_self_iff : cutAttachments cs = cs ↔ ¬ Attached [] cs := by
  induction cs with
  | nil => simp [cutAttachments, Attached]
  | cons c cs ih =>
    rw [cutAttachments_cons_eq_self, ih, attached_cons, not_or, not_and, Bool.not_eq_true]

/-- A text that ends in a blank has a blank as its last character. -/
theorem endsInBlank_iff : EndsInBlank [] cs ↔ ∃ c ∈ cs.getLast?, isBlank c = true := by
  constructor
  · rintro ⟨before, c, after, rfl, hc, hafter⟩
    obtain rfl := List.eq_nil_iff_forall_not_mem.mpr fun d hd => by simpa using hafter d hd
    exact ⟨c, by simp, hc⟩
  · rintro ⟨c, hlast, hc⟩
    obtain ⟨before, rfl⟩ := List.getLast?_eq_some_iff.mp hlast
    exact ⟨before, c, [], rfl, hc, by simp⟩

/-- Trimming the end leaves the texts alone that do not end in a blank. -/
theorem trimEnd_eq_self_iff : trimEnd cs = cs ↔ ¬ EndsInBlank [] cs := by
  rw [endsInBlank_iff]
  constructor
  · rintro h ⟨c, hlast, hc⟩
    rw [← h] at hlast
    rw [trimEndOf_getLast? isBlank cs c hlast] at hc
    cases hc
  · intro h
    refine trimEndOf_eq_self fun c hlast => ?_
    by_contra hc
    exact h ⟨c, hlast, by simpa using hc⟩

/-- A text is stripped if nothing that stripping looks for is in it. -/
theorem stripped_iff_clean : Stripped cs ↔ Clean cs :=
  ⟨fun h => ⟨h.unquoted, cutAttachments_eq_self_iff.mp h.unattached,
      trimEnd_eq_self_iff.mp h.trimmed⟩,
    fun h => ⟨cutAttachments_eq_self_iff.mpr h.unattached, trimEnd_eq_self_iff.mpr h.trimmed,
      h.unquoted⟩⟩

/-! ### Dropping quotes -/

/-- What stands around a character of the filtered text comes from around it in the text. -/
theorem exists_split_of_filter {p : Char → Bool} {before after : List Char} {c : Char}
    (h : cs.filter p = before ++ c :: after) :
    ∃ before' after', cs = before' ++ c :: after' ∧ before'.filter p = before ∧
      after'.filter p = after := by
  obtain ⟨front, back, rfl, hfront, hback⟩ := List.filter_eq_append_iff.mp h
  obtain ⟨run, after', rfl, hrun, -, hafter⟩ := List.filter_eq_cons_iff.mp hback
  refine ⟨front ++ run, after', by simp, ?_, hafter⟩
  rw [List.filter_append, hfront, List.filter_eq_nil_iff.mpr hrun, List.append_nil]

/-- Dropping double quotes leaves the other characters. -/
theorem mem_filter_quote {c : Char} : c ∈ cs.filter (· ≠ '"') ↔ c ∈ cs ∧ c ≠ '"' := by
  rw [List.mem_filter, decide_eq_true_iff]

/-- An attachment shows when double quotes are dropped if there is one with quotes skipped. -/
theorem attached_filter : Attached [] (cs.filter (· ≠ '"')) ↔ Attached ['"'] cs := by
  constructor
  · rintro ⟨before, gap, after, heq, hgap⟩
    obtain ⟨before', rest, rfl, -, hrest⟩ := exists_split_of_filter heq
    obtain ⟨gap', after', rfl, rfl, -⟩ := exists_split_of_filter hrest
    refine ⟨before', gap', after', rfl, fun c hc => ?_⟩
    by_cases hquote : c = '"'
    · exact Or.inr (List.mem_singleton.mpr hquote)
    · exact (hgap c (mem_filter_quote.mpr ⟨hc, hquote⟩)).imp_right (by simp)
  · rintro ⟨before, gap, after, rfl, hgap⟩
    refine ⟨before.filter (· ≠ '"'), gap.filter (· ≠ '"'), after.filter (· ≠ '"'), by simp, ?_⟩
    intro c hc
    obtain ⟨hc, hne⟩ := mem_filter_quote.mp hc
    exact (hgap c hc).imp_right fun hquote => absurd (List.mem_singleton.mp hquote) hne

/-- A blank is at the end when double quotes are dropped if there is one with quotes skipped. -/
theorem endsInBlank_filter : EndsInBlank [] (cs.filter (· ≠ '"')) ↔ EndsInBlank ['"'] cs := by
  constructor
  · rintro ⟨before, c, after, heq, hc, hafter⟩
    obtain ⟨before', after', rfl, -, rfl⟩ := exists_split_of_filter heq
    refine ⟨before', c, after', rfl, hc, fun d hd => List.mem_singleton.mpr ?_⟩
    by_contra hquote
    exact absurd (hafter d (mem_filter_quote.mpr ⟨hd, hquote⟩)) List.not_mem_nil
  · rintro ⟨before, c, after, rfl, hc, hafter⟩
    have hne : c ≠ '"' := by
      rintro rfl
      exact absurd hc (by decide)
    refine ⟨before.filter (· ≠ '"'), c, after.filter (· ≠ '"'), by simp [hne], hc, fun d hd => ?_⟩
    obtain ⟨hd, hquote⟩ := mem_filter_quote.mp hd
    exact absurd (List.mem_singleton.mp (hafter d hd)) hquote

/-! ### One application and the second -/

/-- What stripping keeps of a text before it drops the quotes. -/
def kept (cs : List Char) : List Char := trimEnd (cutAttachments cs)

/-- One application is enough if what is kept has neither an attachment nor a blank at its end,
quotes not counted. -/
theorem clean_stripAnnotations_iff :
    Clean (stripAnnotations cs) ↔
      ¬ Attached ['"'] (kept cs) ∧ ¬ EndsInBlank ['"'] (kept cs) := by
  have hstrip : stripAnnotations cs = (kept cs).filter (· ≠ '"') := rfl
  rw [← attached_filter, ← endsInBlank_filter, ← hstrip]
  exact ⟨fun h => ⟨h.unattached, h.trimmed⟩,
    fun h => ⟨quote_not_mem_stripAnnotations cs, h.1, h.2⟩⟩

/-- Stripping a text without double quotes leaves a clean one. -/
theorem clean_of_unquoted (hq : '"' ∉ cs) : Clean (stripAnnotations cs) :=
  stripped_iff_clean.mp (stripped_stripAnnotations hq)

/-- Stripping leaves a clean text alone. -/
theorem Clean.stripAnnotations_eq (h : Clean cs) : stripAnnotations cs = cs :=
  (stripped_iff_clean.mpr h).stripAnnotations_eq

/-- The first application has dropped the quotes, so the second one leaves nothing to be found. -/
theorem clean_stripAnnotations_stripAnnotations (cs : List Char) :
    Clean (stripAnnotations (stripAnnotations cs)) :=
  clean_of_unquoted (quote_not_mem_stripAnnotations cs)

end Text

namespace Token

/-- The characters of a stripped string are its stripped characters. -/
theorem toList_stripAnnotations (s : String) :
    (stripAnnotations s).toList = Text.stripAnnotations s.toList := toList_onString ..

/-- Stripping leaves no quote. Two applications leave nothing to be found, and one does so exactly
if the second one changes nothing, which depends on what the quotes of the text stand between. -/
theorem stripAnnotations_twice (s : String) :
    '"' ∉ (stripAnnotations s).toList ∧
      Text.Clean (stripAnnotations (stripAnnotations s)).toList ∧
      stripAnnotations (stripAnnotations (stripAnnotations s)) =
        stripAnnotations (stripAnnotations s) ∧
      (stripAnnotations (stripAnnotations s) = stripAnnotations s ↔
        Text.Clean (stripAnnotations s).toList) ∧
      (Text.Clean (stripAnnotations s).toList ↔
        ¬ Text.Attached ['"'] (Text.kept s.toList) ∧
          ¬ Text.EndsInBlank ['"'] (Text.kept s.toList)) ∧
      ('"' ∉ s.toList → Text.Clean (stripAnnotations s).toList) := by
  have htwice := Text.clean_stripAnnotations_stripAnnotations s.toList
  simp only [← String.toList_inj, toList_stripAnnotations]
  refine ⟨Text.quote_not_mem_stripAnnotations _, htwice, htwice.stripAnnotations_eq,
    ⟨fun h => h ▸ htwice, Text.Clean.stripAnnotations_eq⟩, Text.clean_stripAnnotations_iff,
    Text.clean_of_unquoted⟩

/-- A quoted name that ends in a blank, at the end of a text. -/
def quotedBlank : String := "store i32 0, ptr %\"a \""

/-- A quoted word behind a comma that begins with an exclamation mark. -/
def quotedMark : String := "callbr void asm sideeffect \"\", \"!i\"() to label %a [label %b]"

/-- One application leaves the blank at the end, and an attachment that a second one cuts off. -/
theorem stripAnnotations_once :
    stripAnnotations quotedBlank = "store i32 0, ptr %a " ∧
      stripAnnotations (stripAnnotations quotedBlank) = "store i32 0, ptr %a" ∧
      Text.EndsInBlank [] (stripAnnotations quotedBlank).toList ∧
      stripAnnotations quotedMark = "callbr void asm sideeffect , !i() to label %a [label %b]" ∧
      stripAnnotations (stripAnnotations quotedMark) = "callbr void asm sideeffect" ∧
      Text.Attached [] (stripAnnotations quotedMark).toList := by
  have hblank : stripAnnotations quotedBlank = "store i32 0, ptr %a " := by decide +kernel
  have hmark : stripAnnotations quotedMark =
      "callbr void asm sideeffect , !i() to label %a [label %b]" := by decide +kernel
  refine ⟨hblank, by decide +kernel, ?_, hmark, by decide +kernel, ?_⟩
  · rw [hblank]
    exact ⟨"store i32 0, ptr %a".toList, ' ', [], rfl, by decide, by simp⟩
  · rw [hmark]
    refine ⟨"callbr void asm sideeffect ".toList, [' '], "i() to label %a [label %b]".toList, rfl,
      fun c hc => ?_⟩
    rw [List.mem_singleton.mp hc]
    exact Or.inl (by decide)

end Token

end InstrGraph

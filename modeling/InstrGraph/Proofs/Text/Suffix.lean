import InstrGraph.Proofs.Text.Symbols

/-!
# Numeric suffixes

Stripping the numeric suffix of a name leaves a beginning of the name (`stripSuffix_prefix`), and of
an identifier an identifier with the same sigil. A name that has been stripped has no suffix any
more (`stripSuffix_stripSuffix`).
-/

namespace InstrGraph

namespace Text

/-- One suffix behind another one is a suffix. -/
theorem isSuffixFrom_append {state : SuffixState} {xs ys : List Char}
    (hx : isSuffixFrom state xs = true) (hy : isSuffixFrom .start ys = true) :
    isSuffixFrom state (xs ++ ys) = true := by
  induction xs generalizing state with
  | nil =>
    cases state with
    | digit =>
      cases ys with
      | nil => rfl
      | cons c rest =>
        simp only [isSuffixFrom, Bool.and_eq_true, beq_iff_eq] at hy
        simpa [isSuffixFrom, hy.1] using hy.2
    | start => simp [isSuffixFrom] at hx
    | dot => simp [isSuffixFrom] at hx
  | cons c rest ih =>
    cases state with
    | start =>
      simp only [isSuffixFrom, Bool.and_eq_true] at hx
      simp [isSuffixFrom, hx.1, ih hx.2]
    | dot =>
      simp only [isSuffixFrom, Bool.and_eq_true] at hx
      simp [isSuffixFrom, hx.1, ih hx.2]
    | digit =>
      simp only [isSuffixFrom, List.cons_append] at hx ⊢
      split
      · rename_i hc
        rw [if_pos hc] at hx
        exact ih hx
      · rename_i hc
        rw [if_neg hc, Bool.and_eq_true] at hx
        simp [hx.1, ih hx.2]

/-- What is split off a text is nothing or a suffix. -/
theorem splitSuffix_snd (cs : List Char) :
    (splitSuffix cs).2 = [] ∨ isSuffixFrom .start (splitSuffix cs).2 = true := by
  induction cs with
  | nil => exact Or.inl rfl
  | cons c cs ih =>
    simp only [splitSuffix]
    split
    · rename_i h
      exact Or.inr h
    · exact ih

/-- The longest suffix has been split off, so none is left. -/
theorem splitSuffix_splitSuffix (cs : List Char) :
    splitSuffix (splitSuffix cs).1 = ((splitSuffix cs).1, []) := by
  induction cs with
  | nil => rfl
  | cons c cs ih =>
    simp only [splitSuffix]
    split
    · rfl
    · rename_i hc
      have hno : isSuffixFrom .start (c :: (splitSuffix cs).1) = false := by
        rw [Bool.eq_false_iff]
        intro hs
        apply hc
        rcases splitSuffix_snd cs with hnil | hsuffix
        · have happend := splitSuffix_append cs
          rw [hnil, List.append_nil] at happend
          rwa [happend] at hs
        · have := isSuffixFrom_append hs hsuffix
          rwa [List.cons_append, splitSuffix_append] at this
      simp [splitSuffix, hno, ih]

/-- Without a dot there is no suffix. -/
theorem splitSuffix_of_not_mem {cs : List Char} (h : '.' ∉ cs) : splitSuffix cs = (cs, []) := by
  induction cs with
  | nil => rfl
  | cons c cs ih =>
    rw [List.mem_cons, not_or] at h
    have hc : (c == '.') = false := beq_eq_false_iff_ne.mpr (Ne.symm h.1)
    simp [splitSuffix, isSuffixFrom, hc, ih h.2]

/-- Stripping the suffix of a name twice does no more than stripping it once. -/
theorem stripSuffix_stripSuffix (cs : List Char) :
    stripSuffix (stripSuffix cs) = stripSuffix cs := by
  unfold stripSuffix
  split
  · rename_i h
    rw [splitSuffix_splitSuffix, if_pos h]
  · rfl

end Text

namespace Token

/-- A name begins with itself without its suffix. -/
theorem stripSuffix_prefix (t : String) : (stripSuffix t).toList <+: t.toList := by
  rw [stripSuffix, toList_onString, Text.stripSuffix]
  split
  · exact ⟨_, Text.splitSuffix_append t.toList⟩
  · exact List.prefix_refl _

/-- The names of aggregate types have a dot. -/
theorem isStructLike_of_not_mem {t : String} (h : '.' ∉ t.toList) : isStructLike t = false := by
  rw [isStructLike, Text.isStructLike, List.any_eq_false]
  intro head hhead hpre
  have hdot := (by decide : ∀ head ∈ Text.aggregateHeads, '.' ∈ head) head hhead
  exact h ((List.isPrefixOf_iff_prefix.mp hpre).mem hdot)

/-- An identifier without its suffix is an identifier. -/
theorem isSymbol_stripSuffix {t : String} (h : isSymbol t = true) :
    isSymbol (stripSuffix t) = true := by
  obtain ⟨suffix, hsuffix⟩ := stripSuffix_prefix t
  have hlen : stripSuffix t = t ∨ 1 < (stripSuffix t).toList.length := by
    rw [stripSuffix, ← String.toList_inj, toList_onString, Text.stripSuffix]
    split
    · rename_i hbytes
      right
      match hbase : (Text.splitSuffix t.toList).1 with
      | [] => simp [hbase, Text.byteLength] at hbytes
      | [c] =>
        -- the first character of an identifier is one byte long
        have happend := Text.splitSuffix_append t.toList
        rw [hbase] at happend
        rw [isSymbol, ← happend, List.singleton_append, Text.isIdentifier_cons] at h
        have hsize : c.utf8Size = 1 := by
          have hsigil := h.1
          simp only [Text.isSigil, Bool.or_eq_true, beq_iff_eq] at hsigil
          rcases hsigil with rfl | rfl <;> decide
        simp [hbase, Text.byteLength, hsize] at hbytes
      | c :: d :: rest => simp
    · exact Or.inl rfl
  rcases hlen with heq | hlen
  · rwa [heq]
  · cases hbase : (stripSuffix t).toList with
    | nil => simp [hbase] at hlen
    | cons c rest =>
      rw [hbase] at hsuffix hlen
      rw [isSymbol, ← hsuffix, List.cons_append, Text.isIdentifier_cons] at h
      rw [isSymbol, hbase, Text.isIdentifier_cons]
      exact ⟨h.1, by rintro rfl; simp at hlen, fun d hd => h.2.2 d (List.mem_append_left _ hd)⟩

/-- No suffix is left. -/
theorem stripSuffix_stripSuffix (t : String) : stripSuffix (stripSuffix t) = stripSuffix t := by
  rw [stripSuffix, stripSuffix, onString_onString]
  exact onString_congr (Text.stripSuffix_stripSuffix _)

/-- A name without a dot has no suffix. -/
theorem stripSuffix_of_not_mem {t : String} (h : '.' ∉ t.toList) : stripSuffix t = t := by
  refine onString_eq_self ?_
  rw [Text.stripSuffix, Text.splitSuffix_of_not_mem h]
  split <;> rfl

/-- A stripped name has the sigil of the name. -/
theorem head?_stripSuffix {t : String} (h : isSymbol t = true) :
    (stripSuffix t).toList.head? = t.toList.head? := by
  obtain ⟨suffix, hsuffix⟩ := stripSuffix_prefix t
  have hne := Text.ne_nil_of_isIdentifier (isSymbol_stripSuffix h)
  rw [← hsuffix]
  cases hc : (stripSuffix t).toList with
  | nil => exact absurd hc hne
  | cons c cs => rfl

end Token

end InstrGraph

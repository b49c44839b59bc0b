import InstrGraph.Proofs.Yaml.Cursor

/-!
# Plain scalars are read back

A plain scalar is read run by run, each up to a gap. A text of one line that has no sign in it
comes back as a whole, and the reader stops in the next line if that is indented less
(`readPlain_line`). A name in front of a colon comes back too (`readPlain_name`).
-/

namespace InstrGraph.Yaml

variable {c : Char} {cs tail rest : List Char} {i l k n indent : Nat} {afterGap : Bool}

/-- A text that a plain scalar can go on with behind a gap. -/
structure GoesOn (cs : List Char) : Prop where
  ne_nil : cs ≠ []
  noBreak : ∀ c ∈ cs, isBreak c = false
  head : ∀ c ∈ cs.head?, isBlank c = false
  last : ∀ c ∈ cs.getLast?, isBlank c = false
  noSign : hasInnerSign true cs = false

/-- A text that can be a plain scalar right of the first column. -/
structure IsPlain (cs : List Char) : Prop extends GoesOn cs where
  noLead : ∀ c rest, cs = c :: rest → isLeadingSign c rest = false
  noMark : cs.head? ≠ some byteOrderMark

/-- A word of names: letters, digits, underscores and hyphens, the last of these not at its end. -/
structure IsWord (cs : List Char) : Prop where
  ne_nil : cs ≠ []
  nameChar : ∀ c ∈ cs, isNameChar c = true
  last : cs.getLast? ≠ some '-'

instance (cs : List Char) : Decidable (IsWord cs) :=
  decidable_of_iff (cs ≠ [] ∧ cs.all isNameChar = true ∧ cs.getLast? ≠ some '-')
    ⟨fun h => ⟨h.1, List.all_eq_true.mp h.2.1, h.2.2⟩,
      fun h => ⟨h.ne_nil, List.all_eq_true.mpr h.nameChar, h.last⟩⟩

/-! ### Signs -/

/-- A text without signs begins with none and goes on without any. -/
theorem noSign_cons (h : hasInnerSign afterGap (c :: rest) = false) :
    (c == ':' && atGap rest) = false ∧ (c == '#' && afterGap) = false ∧
      hasInnerSign (isBlank c || isBreak c) rest = false := by
  rw [hasInnerSign, Bool.or_eq_false_iff, Bool.or_eq_false_iff] at h
  exact ⟨h.1.1, h.1.2, h.2⟩

/-- Behind a blank the rest of a text without signs is one. -/
theorem noSign_append (h : hasInnerSign afterGap (cs ++ rest) = false) (hne : cs ≠ [])
    (hlast : ∀ c ∈ cs.getLast?, isBlank c = true) : hasInnerSign true rest = false := by
  induction cs generalizing afterGap with
  | nil => exact absurd rfl hne
  | cons c cs ih =>
    obtain ⟨-, -, hrest⟩ := noSign_cons h
    cases cs with
    | nil =>
      rw [hlast c rfl] at hrest
      exact hrest
    | cons d cs => exact ih hrest (by simp) hlast

/-- A name has no signs. -/
theorem noSign_of_isNameChar (h : ∀ c ∈ cs, isNameChar c = true) :
    hasInnerSign afterGap cs = false := by
  induction cs generalizing afterGap with
  | nil => rfl
  | cons c cs ih =>
    obtain ⟨hc, hcs⟩ := List.forall_mem_cons.mp h
    rw [hasInnerSign, ih hcs, beq_false_of_ne (ne_of_isNameChar hc (by decide)),
      beq_false_of_ne (ne_of_isNameChar hc (by decide))]
    rfl

/-! ### Runs -/

/-- A plain run ends in front of a gap. -/
theorem plainRun_nil_of_atGap (h : atGap rest = true) : plainRun false rest = some [] := by
  cases rest with
  | nil => rfl
  | cons c rest =>
    have hc : (isBlank c || isBreak c) = true := h
    rw [plainRun, if_pos hc]

/-- A plain run ends in front of a colon with a gap behind it. -/
theorem plainRun_colon (h : atGap rest = true) : plainRun false (':' :: rest) = some [] := by
  simp [plainRun, h, isBlank, isBreak]

/-- Whether a text begins with a gap does not depend on what follows it. -/
theorem atGap_append (hne : cs ≠ []) (tail : List Char) : atGap (cs ++ tail) = atGap cs := by
  cases cs with
  | nil => exact absurd rfl hne
  | cons c cs => rfl

/-- The characters up to the next blank, in a text without signs. -/
theorem plainRun_append (hcs : ∀ c ∈ cs, isBreak c = false)
    (hsign : hasInnerSign afterGap cs = false) (htail : plainRun false tail = some []) :
    plainRun false (cs ++ tail) = some (cs.takeWhile fun c => !isBlank c) := by
  induction cs generalizing afterGap with
  | nil => exact htail
  | cons c cs ih =>
    obtain ⟨hbreak, hbreaks⟩ := List.forall_mem_cons.mp hcs
    obtain ⟨hcolon, -, hrest⟩ := noSign_cons hsign
    rw [List.cons_append, plainRun]
    cases hblank : isBlank c with
    | true => simp [hblank]
    | false =>
      have hgap : (c == ':' && atGap (cs ++ tail)) = false := by
        cases cs with
        | nil =>
          have hc : (c == ':') = false := by simpa [atGap] using hcolon
          rw [hc, Bool.false_and]
        | cons d cs => rwa [atGap_append (by simp)]
      simp only [hbreak, hgap, Bool.or_self, Bool.false_and, Bool.false_eq_true, if_false,
        ih hbreaks hrest, Option.map_some]
      rw [List.takeWhile_cons_of_pos (by simp [hblank])]

/-! ### Scalars -/

namespace GoesOn

/-- A text is a run, or a run, blanks and a text. -/
theorem cases_run (h : GoesOn cs) :
    (∀ c ∈ cs, isBlank c = false) ∨
      ∃ run blanks more, cs = run ++ (blanks ++ more) ∧ run ≠ [] ∧ blanks ≠ [] ∧
        (cs.takeWhile fun c => !isBlank c) = run ∧ (∀ c ∈ blanks, isBlank c = true) ∧
          GoesOn more := by
  obtain ⟨c, rest, rfl⟩ := List.exists_cons_of_ne_nil h.ne_nil
  obtain ⟨run, blanksMore, hrun, htake, hrunNe, hnotBlank, hhead⟩ :=
    @exists_run c (fun c => !isBlank c) (by simpa using h.head c rfl) rest
  rcases blanksMore with _ | ⟨b, bs⟩
  · left
    rw [hrun, List.append_nil]
    simpa using hnotBlank
  · right
    have hb : isBlank b = true := by simpa using hhead b rfl
    obtain ⟨blanks, more, hblanks, -, hblanksNe, hblank, hmore⟩ := exists_run hb bs
    obtain ⟨before, b', hlast⟩ := List.eq_nil_or_concat blanks |>.resolve_left hblanksNe
    have hb' : isBlank b' = true := hblank b' (by simp [hlast])
    have hsplit : c :: rest = (run ++ before ++ [b']) ++ more := by
      rw [hrun, hblanks, hlast]
      simp
    have hmoreNe : more ≠ [] := by
      rintro rfl
      have hnot : isBlank b' = false := h.last b' (by rw [hsplit]; simp)
      rw [hb'] at hnot
      exact Bool.noConfusion hnot
    have hsign := h.noSign
    rw [hsplit] at hsign
    refine ⟨run, blanks, more, by rw [hrun, hblanks], hrunNe, hblanksNe, htake.symm, hblank,
      { ne_nil := hmoreNe
        noBreak := fun d hd => h.noBreak d (hsplit ▸ by simp [hd])
        head := hmore
        last := fun d hd => h.last d (by
          rw [hsplit, List.getLast?_append, Option.mem_def.mp hd]
          rfl)
        noSign := noSign_append hsign (by simp) fun d hd => ?_ }⟩
    obtain rfl : b' = d := by simpa using hd
    exact hb'

/-- A text that goes on does not begin with a gap. -/
theorem noGap (h : GoesOn cs) (tail : List Char) :
    ∀ c ∈ (cs ++ tail).head?, isBlank c = false ∧ isBreak c = false := by
  obtain ⟨d, rest, rfl⟩ := List.exists_cons_of_ne_nil h.ne_nil
  rintro c ⟨⟩
  exact ⟨h.head d rfl, h.noBreak d (by simp)⟩

/-- A text that goes on does not begin with a comment. -/
theorem not_sees (h : GoesOn cs) (tail : List Char) :
    (⟨cs ++ tail, i, l, k⟩ : Cursor).sees '#' = false := by
  obtain ⟨d, rest, rfl⟩ := List.exists_cons_of_ne_nil h.ne_nil
  have hd : (d == '#') = false := by simpa using (noSign_cons h.noSign).2.1
  simpa [Cursor.sees] using hd

end GoesOn

/-- One run, and the gap behind it. -/
theorem readPlainFrom_step {place place' : Cursor} {run : List Char} {gap next : Gap} {fuel : Nat}
    (hmarker : place.atMarker = false) (hcomment : place.sees '#' = false)
    (hrun : plainRun false place.rest = some run) (hne : run ≠ [])
    (hgap : readGap indent fuel (place.past run.length) = some (next, place')) :
    readPlainFrom false indent (fuel + 1) gap place =
      if next.isEmpty then some (gap.text ++ run, false, place')
      else if place'.column < indent then some (gap.text ++ run, next.crossesLine, place')
      else (readPlainFrom false indent fuel next place').map fun r =>
        (gap.text ++ run ++ r.1, r.2) := by
  obtain ⟨a, more, rfl⟩ := List.exists_cons_of_ne_nil hne
  rw [readPlainFrom, hmarker, hcomment]
  simp only [hrun, hgap, Bool.or_self, Bool.false_eq_true, if_false, Bool.not_false, Bool.true_and,
    decide_eq_true_eq]

/-- The rest of a plain scalar up to the end of its line, if the next line is indented less. -/
theorem readPlainFrom_line (hline : IsLine tail n rest) (hn : n < indent) {fuel : Nat} {gap : Gap}
    (h : GoesOn cs) (hfuel : cs.length < fuel) (hk : indent ≤ k) :
    readPlainFrom false indent fuel gap ⟨cs ++ '\n' :: tail, i, l, k⟩ =
      some (gap.text ++ cs, true, ⟨rest, i + cs.length + 1 + n, l + 1, n⟩) := by
  induction fuel generalizing cs gap i k with
  | zero => omega
  | succ fuel ih =>
    have hmarker : (⟨cs ++ '\n' :: tail, i, l, k⟩ : Cursor).atMarker = false :=
      Cursor.atMarker_of_column (by omega)
    have hrun := plainRun_append h.noBreak h.noSign (@plainRun_nil_of_atGap ('\n' :: tail) rfl)
    have hlength : 0 < cs.length := List.length_pos_iff.mpr h.ne_nil
    rcases h.cases_run with hblank | ⟨run, blanks, more, heq, hne, hblanks, htake, hblank, hmore⟩
    · -- The line ends behind the run.
      rw [List.takeWhile_eq_self_iff.mpr fun c hc => by simp [hblank c hc]] at hrun
      have hpos : 0 < fuel := by omega
      have hgap := hline.readGap (i := i + cs.length) (l := l) (k := k + cs.length) indent hpos
      rw [readPlainFrom_step hmarker (h.not_sees _) hrun h.ne_nil
        (by rw [Cursor.past_append, hgap])]
      exact (if_neg (by decide)).trans (if_pos hn)
    · -- The line goes on behind blanks.
      rw [htake] at hrun
      have hcs : cs.length = run.length + (blanks.length + more.length) := by
        rw [heq, List.length_append, List.length_append]
      have hpos : 0 < run.length := List.length_pos_iff.mpr hne
      have hpast : (⟨cs ++ '\n' :: tail, i, l, k⟩ : Cursor).past run.length =
          ⟨blanks ++ (more ++ '\n' :: tail), i + run.length, l, k + run.length⟩ := by
        rw [heq, List.append_assoc, Cursor.past_append, List.append_assoc]
      have hgap := readGap_blanks hblank (hmore.noGap ('\n' :: tail)) indent fuel
        (i := i + run.length) (l := l) (k := k + run.length)
      have hread := @ih more (i + run.length + blanks.length) (k + run.length + blanks.length)
        ⟨blanks, []⟩ hmore (by omega) (by omega)
      have hempty : ¬ (⟨blanks, []⟩ : Gap).isEmpty = true := by
        simpa [Gap.isEmpty] using hblanks
      rw [readPlainFrom_step hmarker (h.not_sees _) hrun hne (by rw [hpast, hgap]),
        if_neg hempty, if_neg (show ¬ k + run.length + blanks.length < indent by omega), hread]
      have htext : gap.text ++ run ++ ((⟨blanks, []⟩ : Gap).text ++ more) = gap.text ++ cs := by
        rw [heq, List.append_assoc]
        rfl
      have hindex : i + run.length + blanks.length + more.length + 1 + n =
          i + cs.length + 1 + n := by omega
      rw [Option.map_some, htext, hindex]

/-- A plain scalar up to the end of its line. -/
theorem readPlain_line (hline : IsLine tail n rest) (hn : n < indent) (h : GoesOn cs)
    (hk : indent ≤ k) :
    readPlain false indent ⟨cs ++ '\n' :: tail, i, l, k⟩ =
      some (cs, true, ⟨rest, i + cs.length + 1 + n, l + 1, n⟩) :=
  readPlainFrom_line hline hn h (by simp) hk

/-- What a writer takes for plain is so. -/
theorem isPlain_of_canBePlain (hne : cs ≠ []) (h : canBePlain cs = true) : IsPlain cs := by
  simp only [canBePlain, canBeQuoted, needsEscapes, Bool.and_eq_true, Bool.not_eq_true',
    Bool.or_eq_false_iff, Bool.not_eq_false', List.all_eq_true] at h
  obtain ⟨⟨⟨⟨⟨⟨hprintable, -⟩, -⟩, hbreak⟩, hhead⟩, hlast⟩, hsigns⟩ := h
  obtain ⟨c, rest, rfl⟩ := List.exists_cons_of_ne_nil hne
  have hblank {d : Char} (hd : d ∈ c :: rest) : isBlank d = isSpace d :=
    isBlank_eq_isSpace (hprintable d hd)
  rw [hasSigns, Bool.or_eq_false_iff] at hsigns
  obtain ⟨hlead, hinner⟩ := Bool.or_eq_false_iff.mp hsigns.2
  have hcolon : (c == ':' && atGap rest) = false := by
    rw [isLeadingSign, Bool.or_eq_false_iff] at hlead
    cases hc : c == ':' with
    | false => rfl
    | true => simpa [hc] using hlead.2
  have hnumber : (c == '#' && true) = false := by
    rw [isLeadingSign, Bool.or_eq_false_iff, String.contains_char_eq,
      decide_eq_false_iff_not] at hlead
    rw [Bool.and_true, beq_eq_false_iff_ne]
    rintro rfl
    exact hlead.1 (by decide)
  exact
    { ne_nil := hne
      noBreak := fun d hd => by simpa using List.any_eq_false.mp hbreak d hd
      head := fun d hd => by
        rw [hblank (List.mem_of_head? hd)]
        simpa [Option.mem_def.mp hd] using hhead
      last := fun d hd => by
        rw [hblank (List.mem_of_getLast? hd)]
        simpa [Option.mem_def.mp hd] using hlast
      noSign := by rw [hasInnerSign, hcolon, hnumber, hinner]; rfl
      noLead := by
        rintro d more ⟨⟩
        exact hlead
      noMark := fun hmark =>
        absurd (hprintable byteOrderMark (List.mem_of_head? hmark)) (by decide) }

namespace IsWord

/-- A word can be plain. -/
theorem isPlain (h : IsWord cs) : IsPlain cs where
  ne_nil := h.ne_nil
  noBreak c hc := not_isBreak_of_isNameChar (h.nameChar c hc)
  head c hc := not_isBlank_of_isNameChar (h.nameChar c (List.mem_of_head? hc))
  last c hc := not_isBlank_of_isNameChar (h.nameChar c (List.mem_of_getLast? hc))
  noSign := noSign_of_isNameChar h.nameChar
  noLead c rest heq := by
    have hc : isNameChar c = true := h.nameChar c (heq ▸ List.mem_cons_self)
    have hne {d : Char} (hd : isNameChar d = false) : (c == d) = false :=
      beq_false_of_ne (ne_of_isNameChar hc hd)
    have hlist : "#,[]\x7b\x7d&*!|>'\"%@\x60".contains c = false := by
      rw [String.contains_char_eq, decide_eq_false_iff_not]
      intro hmem
      have hall : "#,[]\x7b\x7d&*!|>'\"%@\x60".toList.all (fun d => !isNameChar d) = true := by
        decide
      exact absurd hc (by simpa using List.all_eq_true.mp hall c hmem)
    have hgap : ((c == '?' || c == ':' || c == '-') && atGap rest) = false := by
      rw [hne (by decide), hne (by decide), Bool.false_or, Bool.false_or, Bool.and_eq_false_iff]
      cases rest with
      | nil =>
        left
        rw [beq_eq_false_iff_ne]
        rintro rfl
        exact h.last (heq ▸ rfl)
      | cons d rest =>
        right
        have hd : isNameChar d = true := h.nameChar d (heq ▸ by simp)
        rw [atGap, not_isBlank_of_isNameChar hd, not_isBreak_of_isNameChar hd]
        rfl
    rw [isLeadingSign, hlist, hgap]
    rfl
  noMark hmark := absurd (h.nameChar byteOrderMark (List.mem_of_head? hmark)) (by decide)

/-- In front of a colon stands no marker. -/
theorem not_atMarker (h : IsWord cs) (tail : List Char) :
    (⟨cs ++ ':' :: tail, i, l, k⟩ : Cursor).atMarker = false := by
  have hname {d : Char} (hd : d ∈ cs) : isBlank d = false ∧ isBreak d = false ∧ d ≠ '.' :=
    ⟨not_isBlank_of_isNameChar (h.nameChar d hd), not_isBreak_of_isNameChar (h.nameChar d hd),
      ne_of_isNameChar (h.nameChar d hd) (by decide)⟩
  rcases cs with _ | ⟨a, _ | ⟨b, _ | ⟨c, _ | ⟨d, cs⟩⟩⟩⟩
  · exact absurd rfl h.ne_nil
  · simp [Cursor.atMarker]
  · simp [Cursor.atMarker]
  · simp [Cursor.atMarker, atGap, isBlank, isBreak]
  · simp [Cursor.atMarker, atGap, hname]

end IsWord

/-- A name in front of the colon of its field. -/
theorem readPlain_name (h : IsWord cs) (htail : atGap tail = true) (indent : Nat) :
    readPlain false indent ⟨cs ++ ':' :: tail, i, l, k⟩ =
      some (cs, false, ⟨':' :: tail, i + cs.length, l, k + cs.length⟩) := by
  have hplain := h.isPlain
  have hrun := plainRun_append hplain.noBreak hplain.noSign (plainRun_colon htail)
  rw [List.takeWhile_eq_self_iff.mpr fun c hc => by
    simp [not_isBlank_of_isNameChar (h.nameChar c hc)]] at hrun
  obtain ⟨fuel, hfuel⟩ : ∃ fuel, (cs ++ ':' :: tail).length = fuel + 1 :=
    ⟨cs.length + tail.length, by simp; omega⟩
  have hgap := @readGap_blanks (':' :: tail) (i + cs.length) l (k + cs.length) [] (by simp)
    (by simp; decide) indent fuel
  rw [readPlain, hfuel, readPlainFrom_step (h.not_atMarker tail) (hplain.not_sees _) hrun h.ne_nil
    (by rw [Cursor.past_append]; exact hgap)]
  rfl

end InstrGraph.Yaml

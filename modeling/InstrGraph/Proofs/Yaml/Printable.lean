import InstrGraph.Proofs.Yaml.Plain
import InstrGraph.Text.Hex

/-!
# A written record is printable

A reader refuses a text with characters that have to be escaped. A writer puts none of them into a
text: what is not printable stands between double quotes, as an escape.
-/

namespace InstrGraph.Yaml

variable {c : Char} {cs : List Char} {n : Nat}

/-- A text that needs no escapes. -/
def IsPrintable (cs : List Char) : Prop := ∀ c ∈ cs, isPrintable c = true

namespace IsPrintable

/-- The empty text can be printed. -/
theorem nil : IsPrintable [] := by simp [IsPrintable]

/-- A text can be printed if its first character and the others can be. -/
theorem cons (hc : isPrintable c = true) (h : IsPrintable cs) : IsPrintable (c :: cs) :=
  List.forall_mem_cons.mpr ⟨hc, h⟩

/-- Two texts that can be printed can be printed in a row. -/
theorem append {cs' : List Char} (h : IsPrintable cs) (h' : IsPrintable cs') :
    IsPrintable (cs ++ cs') := by
  intro c hc
  exact (List.mem_append.mp hc).elim (h c) (h' c)

/-- Spaces can be printed. -/
theorem spaces (n : Nat) : IsPrintable (spaces n) := by
  intro c hc
  rw [(List.mem_replicate.mp hc).2]
  decide

/-- A word can be printed. -/
theorem of_isWord (h : IsWord cs) : IsPrintable cs :=
  fun c hc => isPrintable_of_isNameChar (h.nameChar c hc)

/-- A text that needs no escapes can be printed. -/
theorem of_needsEscapes (h : needsEscapes cs = false) : IsPrintable cs := by
  simp only [needsEscapes, Bool.or_eq_false_iff, Bool.not_eq_false', List.all_eq_true] at h
  exact h.1

/-- A text that can be a block can be printed. -/
theorem of_canBeBlock (h : canBeBlock cs = true) : IsPrintable cs := by
  rw [canBeBlock, Bool.and_eq_true, Bool.not_eq_true'] at h
  exact of_needsEscapes h.1

/-- A text that can stand between single quotation marks can be printed. -/
theorem of_canBeQuoted (h : canBeQuoted cs = true) : IsPrintable cs := by
  rw [canBeQuoted, Bool.and_eq_true, Bool.not_eq_true'] at h
  exact of_needsEscapes h.1

/-- A text that can be plain can be printed. -/
theorem of_canBePlain (h : canBePlain cs = true) : IsPrintable cs := by
  simp only [canBePlain, Bool.and_eq_true] at h
  exact of_canBeQuoted h.1.1.1.1

end IsPrintable

/-! ### Texts -/

/-- Digits to the base sixteen can be printed. -/
theorem isPrintable_digits (width n : Nat) :
    IsPrintable ((Text.hexDigits width n).map Char.toUpper) := by
  induction width generalizing n with
  | zero => exact .nil
  | succ width ih =>
    have hdigit : ∀ k < 16, isPrintable (Nat.digitChar k).toUpper = true := by decide
    rw [Text.hexDigits, List.map_append]
    exact (ih _).append (.cons (hdigit _ (Nat.mod_lt _ (by decide))) .nil)

/-- The escape of a character by its code can be printed. -/
theorem isPrintable_codeEscape (c : Char) : IsPrintable (codeEscape c) := by
  rw [codeEscape]
  split_ifs <;> exact .cons (by decide) (isPrintable_digits _ _)

/-- The letter of an escape can be printed. -/
theorem isPrintable_escapeLetter {e : Char} (h : escapeLetter? c = some e) :
    isPrintable e = true := by
  unfold escapeLetter? at h
  split at h <;> cases h
  all_goals decide

/-- Every character is escaped to something that can be printed. -/
theorem isPrintable_escapeChar (c : Char) : IsPrintable (escapeChar c) := by
  rw [escapeChar]
  split
  · refine .cons (by decide) ?_
    cases h : escapeLetter? c with
    | none => exact isPrintable_codeEscape c
    | some e => exact .cons (isPrintable_escapeLetter h) .nil
  · rename_i h
    refine .cons ?_ .nil
    simp only [Bool.or_eq_true, not_or, Bool.not_eq_true', Bool.not_eq_false] at h
    exact h.1.1.1

/-- Every text can be printed between double quotation marks. -/
theorem isPrintable_doubleQuoted (cs : List Char) : IsPrintable (doubleQuoted cs) := by
  refine .cons (by decide) (.append (fun c hc => ?_) (.cons (by decide) .nil))
  obtain ⟨d, -, hd⟩ := List.mem_flatMap.mp hc
  exact isPrintable_escapeChar d c hd

/-- A text that can be printed can be so between single quotation marks. -/
theorem isPrintable_singleQuotedChars (h : IsPrintable cs) (indent : Nat) (afterBreak : Bool) :
    IsPrintable (singleQuotedChars indent afterBreak cs) := by
  have hspaces (afterBreak : Bool) : IsPrintable (if afterBreak then spaces indent else []) := by
    split
    · exact .spaces indent
    · exact .nil
  induction cs generalizing afterBreak with
  | nil => exact hspaces afterBreak
  | cons c cs ih =>
    obtain ⟨hc, hcs⟩ := List.forall_mem_cons.mp h
    have hquote : IsPrintable (if c == '\'' then ['\'', '\''] else [c]) := by
      split
      · exact .cons (by decide) (.cons (by decide) .nil)
      · exact .cons hc .nil
    rw [singleQuotedChars]
    split
    · exact .cons hc (ih hcs true)
    · exact ((hspaces afterBreak).append hquote).append (ih hcs false)

/-- The sign for the line breaks at the end of a block can be printed. -/
theorem isPrintable_chompingSign (cs : List Char) : IsPrintable (chompingSign cs) := by
  rw [chompingSign]
  split
  · exact .cons (by decide) .nil
  · split_ifs
    · exact .cons (by decide) .nil
    · exact .cons (by decide) .nil
    · exact .nil

/-- The signs at the beginning of a block can be printed. -/
theorem isPrintable_blockSigns (cs : List Char) : IsPrintable (blockSigns cs) := by
  rw [blockSigns]
  refine .append ?_ (isPrintable_chompingSign cs)
  split
  · exact .cons (by decide) .nil
  · exact .nil

/-- A text that can be printed can be so as a block. -/
theorem isPrintable_blockChars (h : IsPrintable cs) (indent : Nat) (afterBreak : Bool) :
    IsPrintable (blockChars indent afterBreak cs) := by
  induction cs generalizing afterBreak with
  | nil =>
    rw [blockChars]
    split
    · exact .nil
    · exact .cons (by decide) .nil
  | cons c cs ih =>
    obtain ⟨hc, hcs⟩ := List.forall_mem_cons.mp h
    rw [blockChars]
    split
    · exact .cons hc (ih hcs true)
    · refine .append ?_ (.cons hc (ih hcs false))
      split
      · exact .spaces indent
      · exact .nil

/-- Every text is written in a way that can be printed. -/
theorem isPrintable_textChars (indent : Nat) (s : String) : IsPrintable (textChars indent s) := by
  have hend : IsPrintable ['\n'] := .cons (by decide) .nil
  have hdouble := (isPrintable_doubleQuoted s.toList).append hend
  rw [textChars]
  cases hfeed : s.toList.contains '\n' with
  | true =>
    cases hblock : canBeBlock s.toList with
    | true =>
      have hchars : IsPrintable s.toList := .of_canBeBlock hblock
      exact .cons (by decide) ((isPrintable_blockSigns _).append
        (.cons (by decide) (isPrintable_blockChars hchars indent true)))
    | false => exact hdouble
  | false =>
    cases hplain : !looksOther s && canBePlain s.toList with
    | true =>
      have hchars : IsPrintable s.toList := .of_canBePlain (Bool.and_eq_true_iff.mp hplain).2
      exact hchars.append hend
    | false =>
      cases hquoted : canBeQuoted s.toList with
      | true =>
        have hchars : IsPrintable s.toList := .of_canBeQuoted hquoted
        exact .append (.cons (by decide) ((isPrintable_singleQuotedChars hchars indent false).append
          (.cons (by decide) .nil))) hend
      | false => exact hdouble

/-! ### Records -/

mutual

/-- Words are words, and names too; the latter are short enough for keys. -/
def IsWritable : Value → Prop
  | .word w => IsWord w.toList
  | .text _ => True
  | .words ws => ∀ w ∈ ws, IsWord w.toList
  | .record fs => AreWritable fs

/-- The names of fields are short words, and their values can be written. -/
def AreWritable : List (String × Value) → Prop
  | [] => True
  | (name, v) :: rest =>
    IsWord name.toList ∧ name.toList.length ≤ 1024 ∧ IsWritable v ∧ AreWritable rest

end

/-- Values in the fields of a record can be written together if each of them can. -/
theorem AreWritable.cons {name : String} {v : Value} {fs : List (String × Value)}
    (hname : IsWord name.toList ∧ name.toList.length ≤ 1024) (hv : IsWritable v)
    (hfs : AreWritable fs) : AreWritable ((name, v) :: fs) :=
  ⟨hname.1, hname.2, hv, hfs⟩

/-- A list of words can be printed. -/
theorem isPrintable_itemChars {words : List String} (h : ∀ w ∈ words, IsWord w.toList)
    (indent : Nat) : IsPrintable (itemChars indent words) := by
  intro c hc
  obtain ⟨w, hw, hc⟩ := List.mem_flatMap.mp hc
  exact ((IsPrintable.spaces indent).append (.cons (by decide) (.cons (by decide)
    (.of_isWord (h w hw))))).append (.cons (by decide) .nil) c hc

mutual

/-- A value that can be written is written in a way that can be printed. -/
theorem isPrintable_valueChars (indent : Nat) : (v : Value) → IsWritable v →
    IsPrintable (valueChars indent v)
  | .word w, h => .append (.cons (by decide) (.of_isWord h)) (.cons (by decide) .nil)
  | .text s, _ => .cons (by decide) (isPrintable_textChars (indent + 2) s)
  | .words [], _ => by simp [IsPrintable, valueChars]; decide
  | .words (w :: ws), h => .cons (by decide) (isPrintable_itemChars h indent)
  | .record [], _ => by simp [IsPrintable, valueChars]; decide
  | .record (f :: fs), h => .cons (by decide) (isPrintable_fieldsChars (indent + 2) (f :: fs) h)

/-- Everything that a writer leaves in the text of a record is printable. -/
theorem isPrintable_fieldsChars (indent : Nat) : (fs : List (String × Value)) → AreWritable fs →
    IsPrintable (fieldsChars indent fs)
  | [], _ => .nil
  | (name, v) :: fs, ⟨hname, _, hv, hfs⟩ =>
    (((IsPrintable.spaces indent).append (.of_isWord hname)).append
      (.cons (by decide) (isPrintable_valueChars indent v hv))).append
        (isPrintable_fieldsChars indent fs hfs)

end

end InstrGraph.Yaml

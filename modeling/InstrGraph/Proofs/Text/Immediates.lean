import InstrGraph.Proofs.Text.Classes
import InstrGraph.Text.Immediate
import Mathlib.Data.List.TakeWhile

/-!
# What an immediate is and where one is found

`Immediate.Shape` says what an immediate looks like, and `read_eq_some_iff` that reading finds one
at the front of a text exactly if the text begins so. Cutting a text into spans then has two
cases (`spansFrom_of_read`, `spansFrom_of_read_none`), which do not mention
how many characters are still to be skipped.

A text and what hiding makes of it are related by `Hidden`: some values, together with what stands
in front of them, have given way to the placeholder (`hidden_hideImmediates`). So the identifiers
of a text outlive the hiding (`identifiers_hideImmediates`).
-/

namespace InstrGraph.Text

/-! ### Runs of characters -/

section

variable {p : Char → Bool} {run rest : List Char}

/-- The first character of the text, if there is one, is not of the class. -/
def StopsAt (p : Char → Bool) (cs : List Char) : Prop := ∀ c ∈ cs.head?, p c = false

/-- A run of the class is taken up to where another text stops it. -/
theorem takeWhile_append_of_stopsAt (hrun : ∀ c ∈ run, p c = true) (hrest : StopsAt p rest) :
    (run ++ rest).takeWhile p = run := by
  rw [List.takeWhile_append_of_pos hrun]
  cases rest with
  | nil => simp
  | cons c rest => simp [hrest c rfl]

/-- Dropping a run of the class leaves the text that stops it. -/
theorem dropWhile_append_of_stopsAt (hrun : ∀ c ∈ run, p c = true) (hrest : StopsAt p rest) :
    (run ++ rest).dropWhile p = rest := by
  rw [List.dropWhile_append_of_pos hrun]
  cases rest with
  | nil => rfl
  | cons c rest => simp [hrest c rfl]

/-- Nothing of the class is taken from a text that stops it at once. -/
theorem takeWhile_of_stopsAt (h : StopsAt p rest) : rest.takeWhile p = [] := by
  simpa using takeWhile_append_of_stopsAt (List.forall_mem_nil _) h

/-- A text stops a class if its first character is not of the class. -/
theorem stopsAt_cons {c : Char} : StopsAt p (c :: rest) ↔ p c = false := by simp [StopsAt]

/-- Behind a text that is not empty, what follows does not matter. -/
theorem stopsAt_append_of_ne_nil (h : run ≠ []) : StopsAt p (run ++ rest) ↔ StopsAt p run := by
  cases run with
  | nil => exact absurd rfl h
  | cons c run => simp [StopsAt]

/-- A class that holds of nothing in a nonempty run stops at it. -/
theorem stopsAt_of_forall (h : ∀ c ∈ run, p c = false) : StopsAt p run :=
  fun c hc => h c (List.mem_of_mem_head? hc)

end

namespace Immediate

/-- A word ends in front of what does not go on with a character of words. -/
theorem endsWord_iff {cs : List Char} : endsWord cs = true ↔ StopsAt isWord cs := by
  cases cs <;> simp [endsWord, StopsAt]

/-- What an immediate looks like. -/
inductive Shape : Immediate → Prop
  | typed {width gap sign digits : List Char} (hwidth : width ≠ [])
      (hwidthDigit : ∀ c ∈ width, isDigit c = true) (hgap : gap ≠ [])
      (hgapBlank : ∀ c ∈ gap, isBlank c = true) (hsign : sign = [] ∨ sign = ['-'])
      (hdigits : digits ≠ []) (hdigit : ∀ c ∈ digits, isDigit c = true) :
      Shape ⟨.typed, 'i' :: width, gap, sign ++ digits⟩
  | dereferenceable {word digits : List Char} (hword : word ∈ attributeWords)
      (hdigits : digits ≠ []) (hdigit : ∀ c ∈ digits, isDigit c = true) :
      Shape ⟨.dereferenceable, word, ['('], digits⟩

/-- What may follow an immediate of a form. -/
def MayFollow : ImmediateForm → List Char → Prop
  | .typed, rest => endsWord rest = true
  | .dereferenceable, _ => True

variable {m : Immediate} {cs rest : List Char}

/-- A gap of blanks stops every class without blanks. -/
theorem stopsAt_of_blank {gap : List Char} {p : Char → Bool}
    (hp : ∀ c, isBlank c = true → p c = false) (h : ∀ c ∈ gap, isBlank c = true) :
    StopsAt p gap := stopsAt_of_forall fun c hc => hp c (h c hc)

/-- No blank is a digit. -/
theorem isDigit_of_isBlank {c : Char} (h : isBlank c = true) : isDigit c = false := by
  cases hd : isDigit c with
  | false => rfl
  | true => rw [isBlank_of_isWord (isWord_of_isDigit hd)] at h; exact h.symm

/-- The name of an attribute is a word without digits. -/
theorem isWord_of_mem_attributeWords {word : List Char} (h : word ∈ attributeWords) :
    ∀ c ∈ word, isWord c = true ∧ isDigit c = false := by
  simp only [attributeWords, List.mem_cons, List.not_mem_nil, or_false] at h
  rcases h with rfl | rfl <;> exact forall_mem_of_all (by decide)

/-- What is read as a typed immediate has the shape of one, and a word ends behind it. -/
theorem readTyped_eq_some (h : readTyped cs = some m) :
    m.form = .typed ∧ m.Shape ∧ ∃ rest, cs = m.chars ++ rest ∧ endsWord rest = true := by
  unfold readTyped at h
  split at h
  · rename_i cs
    dsimp only at h
    split at h
    · rename_i hif
      obtain rfl := Option.some.inj h
      simp only [Bool.and_eq_true, Bool.not_eq_true', List.isEmpty_eq_false_iff,
        decide_eq_true_eq] at hif
      obtain ⟨⟨⟨⟨hwidth, hgap⟩, hsign⟩, hdigits⟩, hends⟩ := hif
      have hsign' : ∀ c ∈ ((cs.dropWhile isDigit).dropWhile isBlank).takeWhile (· == '-'),
          c = '-' := fun c hc => by simpa using List.mem_takeWhile_imp hc
      refine ⟨rfl, .typed hwidth (fun c hc => List.mem_takeWhile_imp hc) hgap
        (fun c hc => List.mem_takeWhile_imp hc) ?_ hdigits
        (fun c hc => List.mem_takeWhile_imp hc), _, ?_, hends⟩
      · generalize ((cs.dropWhile isDigit).dropWhile isBlank).takeWhile (· == '-') = sign at *
        match sign, hsign, hsign' with
        | [], _, _ => exact Or.inl rfl
        | [c], _, hc => exact Or.inr (by rw [hc c (by simp)])
      · simp only [chars, closing, List.cons_append, List.append_nil, List.append_assoc,
          List.takeWhile_append_dropWhile]
    · simp at h
  · simp at h

/-- An immediate with a type is read wherever a word ends behind it. -/
theorem readTyped_of_shape (hm : m.Shape) (hf : m.form = .typed) (hr : endsWord rest = true) :
    readTyped (m.chars ++ rest) = some m := by
  cases hm with
  | dereferenceable => simp at hf
  | @typed width gap sign digits hwidth hwidthDigit hgap hgapBlank hsign hdigits hdigit =>
    have hrest : StopsAt isDigit rest := fun c hc => by
      cases hd : isDigit c with
      | false => rfl
      | true => exact ((endsWord_iff.mp hr c hc).symm.trans (isWord_of_isDigit hd)).symm
    have hdigitsStop (p : Char → Bool) (hp : ∀ c, isDigit c = true → p c = false) :
        StopsAt p (digits ++ rest) :=
      (stopsAt_append_of_ne_nil hdigits).mpr (stopsAt_of_forall fun c hc => hp c (hdigit c hc))
    have hminus : ∀ c, isDigit c = true → (c == '-') = false := by
      intro c hc
      rw [beq_eq_false_iff_ne]
      rintro rfl
      exact absurd hc (by decide)
    have hsignStop (p : Char → Bool) (hp : ∀ c, isDigit c = true → p c = false)
        (hm : p '-' = false) : StopsAt p (sign ++ (digits ++ rest)) := by
      rcases hsign with rfl | rfl
      · exact hdigitsStop p hp
      · exact stopsAt_cons.mpr hm
    have hgapStop : StopsAt isDigit (gap ++ (sign ++ (digits ++ rest))) :=
      (stopsAt_append_of_ne_nil hgap).mpr (stopsAt_of_blank (fun _ => isDigit_of_isBlank) hgapBlank)
    have hsignAll : ∀ c ∈ sign, (c == '-') = true := by
      rcases hsign with rfl | rfl <;> simp
    have hsignLen : sign.length ≤ 1 := by rcases hsign with rfl | rfl <;> simp
    have hblank : ∀ c, isDigit c = true → isBlank c = false :=
      fun c hc => isBlank_of_isWord (isWord_of_isDigit hc)
    have hcs : chars ⟨.typed, 'i' :: width, gap, sign ++ digits⟩ ++ rest =
        'i' :: (width ++ (gap ++ (sign ++ (digits ++ rest)))) := by
      simp [chars, closing]
    rw [hcs, readTyped]
    simp only [takeWhile_append_of_stopsAt hwidthDigit hgapStop,
      dropWhile_append_of_stopsAt hwidthDigit hgapStop,
      takeWhile_append_of_stopsAt hgapBlank (hsignStop isBlank hblank (by decide)),
      dropWhile_append_of_stopsAt hgapBlank (hsignStop isBlank hblank (by decide)),
      takeWhile_append_of_stopsAt hsignAll (hdigitsStop _ hminus),
      dropWhile_append_of_stopsAt hsignAll (hdigitsStop _ hminus),
      takeWhile_append_of_stopsAt hdigit hrest, dropWhile_append_of_stopsAt hdigit hrest]
    rw [if_pos]
    simp [hwidth, hgap, hsignLen, hdigits, hr]

/-- What is read as an immediate of an attribute has the shape of one and stands at the
beginning. -/
theorem readDereferenceable_eq_some (h : readDereferenceable cs = some m) :
    m.form = .dereferenceable ∧ m.Shape ∧ ∃ rest, cs = m.chars ++ rest := by
  obtain ⟨word, hword, h⟩ := List.exists_of_findSome?_eq_some h
  dsimp only at h
  split at h
  · rename_i hprefix
    obtain ⟨tail, rfl⟩ := List.isPrefixOf_iff_prefix.mp hprefix
    rw [List.drop_left] at h
    split at h
    · rename_i inner _
      split at h
      · rename_i rest hrest
        split at h
        · simp at h
        · rename_i hne
          obtain rfl := Option.some.inj h
          have hinner := List.takeWhile_append_dropWhile (p := isDigit) (l := inner)
          rw [hrest] at hinner
          refine ⟨rfl, .dereferenceable hword (by simpa using hne)
            (fun c hc => List.mem_takeWhile_imp hc), rest, ?_⟩
          simp only [chars, closing, List.append_assoc, List.cons_append, List.nil_append, hinner]
      · simp at h
    · simp at h
  · simp at h

/-- An immediate of an attribute is read whatever follows it. -/
theorem readDereferenceable_of_shape (hm : m.Shape) (hf : m.form = .dereferenceable) :
    readDereferenceable (m.chars ++ rest) = some m := by
  cases hm with
  | typed => simp at hf
  | @dereferenceable word digits hword hdigits hdigit =>
    have hcs : chars ⟨.dereferenceable, word, ['('], digits⟩ ++ rest =
        word ++ '(' :: (digits ++ ')' :: rest) := by simp [chars, closing]
    have hstop : StopsAt isDigit (')' :: rest) := stopsAt_cons.mpr (by decide)
    have hdigits' : digits.isEmpty = false := by simpa using hdigits
    rw [hcs, readDereferenceable, attributeWords, List.findSome?_cons]
    simp only [attributeWords, List.mem_cons, List.not_mem_nil, or_false] at hword
    rcases hword with rfl | rfl
    · simp only [List.isPrefixOf_iff_prefix.mpr (List.prefix_append _ _), if_true, List.drop_left,
        takeWhile_append_of_stopsAt hdigit hstop, dropWhile_append_of_stopsAt hdigit hstop,
        hdigits', Bool.false_eq_true, if_false]
    · -- the longer word does not begin here
      have hno : "dereferenceable_or_null".toList.isPrefixOf
          ("dereferenceable".toList ++ '(' :: (digits ++ ')' :: rest)) = false := by rfl
      simp only [hno, Bool.false_eq_true, if_false, List.findSome?_cons,
        List.isPrefixOf_iff_prefix.mpr (List.prefix_append _ _), if_true, List.drop_left,
        takeWhile_append_of_stopsAt hdigit hstop, dropWhile_append_of_stopsAt hdigit hstop,
        hdigits']

/-- Reading finds an immediate at the front of a text exactly if the text begins with one. -/
theorem read_eq_some_iff {form : ImmediateForm} :
    read form cs = some m ↔
      m.form = form ∧ m.Shape ∧ ∃ rest, cs = m.chars ++ rest ∧ MayFollow form rest := by
  cases form with
  | typed =>
    refine ⟨readTyped_eq_some, ?_⟩
    rintro ⟨hf, hm, rest, rfl, hr⟩
    exact readTyped_of_shape hm hf hr
  | dereferenceable =>
    constructor
    · intro h
      obtain ⟨hf, hm, rest, hcs⟩ := readDereferenceable_eq_some h
      exact ⟨hf, hm, rest, hcs, trivial⟩
    · rintro ⟨hf, hm, rest, rfl, -⟩
      exact readDereferenceable_of_shape hm hf

/-- The character in front of which immediates of either form begin. -/
def opens (c : Char) : Bool := c == 'i' || c == 'd'

/-- No immediate begins with a character that opens none. -/
theorem read_eq_none_of_not_opens {form : ImmediateForm} {c : Char} (hc : opens c = false) :
    read form (c :: cs) = none := by
  cases h : read form (c :: cs) with
  | none => rfl
  | some m =>
    obtain ⟨-, hm, rest, hcs, -⟩ := read_eq_some_iff.mp h
    cases hm with
    | typed =>
      simp only [chars, List.cons_append, List.cons.injEq] at hcs
      rw [hcs.1] at hc
      exact absurd hc (by decide)
    | dereferenceable hword =>
      simp only [attributeWords, List.mem_cons, List.not_mem_nil, or_false] at hword
      have hd : c = 'd' := by
        rcases hword with rfl | rfl
        all_goals
          simp only [chars, String.toList] at hcs
          exact (List.cons.inj hcs).1
      rw [hd] at hc
      exact absurd hc (by decide)

/-- A character that opens an immediate is one of words. -/
theorem isWord_of_opens {c : Char} (h : opens c = true) : isWord c = true := by
  simp only [opens, Bool.or_eq_true, beq_iff_eq] at h
  rcases h with rfl | rfl <;> decide

/-- Only the first character of an immediate could begin one. -/
theorem Shape.not_opens_of_mem_tail (hm : m.Shape) : ∀ c ∈ m.chars.tail, opens c = false := by
  have hdigit : ∀ c, isDigit c = true → opens c = false := by
    intro c hc
    cases ho : opens c with
    | false => rfl
    | true =>
      simp only [opens, Bool.or_eq_true, beq_iff_eq] at ho
      rcases ho with rfl | rfl <;> exact absurd hc (by decide)
  have hblank : ∀ c, isBlank c = true → opens c = false := by
    intro c hc
    cases ho : opens c with
    | false => rfl
    | true => rw [isBlank_of_isWord (isWord_of_opens ho)] at hc; exact hc.symm
  intro c hc
  cases hm with
  | typed hwidth hwidthDigit hgap hgapBlank hsign hdigits hdigitAll =>
    simp only [chars, closing, List.append_nil, List.cons_append, List.tail_cons,
      List.mem_append] at hc
    rcases hc with (hc | hc) | hc | hc
    · exact hdigit c (hwidthDigit c hc)
    · exact hblank c (hgapBlank c hc)
    · rcases hsign with rfl | rfl
      · simp at hc
      · rw [List.mem_singleton.mp hc]
        decide
    · exact hdigit c (hdigitAll c hc)
  | @dereferenceable word digits hword hdigits hdigitAll =>
    simp only [attributeWords, List.mem_cons, List.not_mem_nil, or_false] at hword
    have hne : word ≠ [] := by rcases hword with rfl | rfl <;> decide
    have htail : ∀ c ∈ word.tail, opens c = false := by
      rcases hword with rfl | rfl <;> exact forall_mem_of_all (by decide)
    have hchars : (chars ⟨.dereferenceable, word, ['('], digits⟩).tail =
        word.tail ++ ('(' :: (digits ++ [')'])) := by
      cases word with
      | nil => exact absurd rfl hne
      | cons c word => simp [chars, closing]
    rw [hchars, List.mem_append, List.mem_cons, List.mem_append, List.mem_singleton] at hc
    rcases hc with hc | rfl | hc | rfl
    · exact htail c hc
    · decide
    · exact hdigit c (hdigitAll c hc)
    · decide

/-- No immediate is empty. -/
theorem Shape.chars_ne_nil (hm : m.Shape) : m.chars ≠ [] := by
  cases hm with
  | typed => simp [chars]
  | dereferenceable hword =>
    simp only [attributeWords, List.mem_cons, List.not_mem_nil, or_false] at hword
    rcases hword with rfl | rfl <;> simp [chars]

end Immediate

/-! ### Cutting, case by case -/

section

variable {form : ImmediateForm} {afterWord : Bool} {c : Char} {cs rest : List Char}

/-- The last character of a run is a word character; `before` tells it of the one before the run. -/
def endsInWord : (before : Bool) → List Char → Bool
  | before, [] => before
  | _, c :: run => endsInWord (isWord c) run

/-- Characters to be skipped bring no spans. -/
theorem spansFrom_skip (form : ImmediateForm) (afterWord : Bool) (run rest : List Char) :
    spansFrom form afterWord run.length (run ++ rest) =
      spansFrom form (endsInWord afterWord run) 0 rest := by
  induction run generalizing afterWord with
  | nil => rfl
  | cons c run ih => exact ih (isWord c)

/-- Where no immediate can be read, a character is a span of its own. -/
theorem spansFrom_of_read_none (h : afterWord = true ∨ Immediate.read form (c :: cs) = none) :
    spansFrom form afterWord 0 (c :: cs) = .other c :: spansFrom form (isWord c) 0 cs := by
  rw [spansFrom]
  rcases h with rfl | h
  · rfl
  · simp [h]

/-- Where an immediate begins it is cut out, and what follows it is cut on its own. -/
theorem spansFrom_of_read {m : Immediate} (h : Immediate.read form (m.chars ++ rest) = some m) :
    spansFrom form false 0 (m.chars ++ rest) =
      .immediate m :: spansFrom form (endsInWord false m.chars) 0 rest := by
  cases hm : m.chars with
  | nil =>
    obtain ⟨-, hshape, -⟩ := Immediate.read_eq_some_iff.mp h
    exact absurd hm hshape.chars_ne_nil
  | cons c tail =>
    rw [hm, List.cons_append] at h
    rw [List.cons_append, spansFrom]
    simp only [Bool.false_eq_true, if_false, h]
    congr 1
    rw [hm, List.length_cons, Nat.add_sub_cancel, spansFrom_skip]
    rfl

/-- Characters in front of which nothing can begin are cut one by one. -/
theorem spansFrom_append_of_not_opens {run : List Char}
    (h : ∀ c ∈ run, Immediate.opens c = false) :
    spansFrom form afterWord 0 (run ++ rest) =
      run.map .other ++ spansFrom form (endsInWord afterWord run) 0 rest := by
  induction run generalizing afterWord with
  | nil => rfl
  | cons c run ih =>
    rw [List.cons_append, spansFrom_of_read_none
      (Or.inr (Immediate.read_eq_none_of_not_opens (h c (by simp)))),
      ih fun d hd => h d (by simp [hd])]
    rfl

/-- In front of a character that is no word character it does not matter what came before. -/
theorem spansFrom_of_endsWord (h : Immediate.endsWord cs = true) (b : Bool) :
    spansFrom form afterWord 0 cs = spansFrom form b 0 cs := by
  cases cs with
  | nil => rfl
  | cons c cs =>
    have hc : Immediate.opens c = false := by
      cases ho : Immediate.opens c with
      | false => rfl
      | true => simp [Immediate.endsWord, Immediate.isWord_of_opens ho] at h
    rw [spansFrom_of_read_none (Or.inr (Immediate.read_eq_none_of_not_opens hc)),
      spansFrom_of_read_none (Or.inr (Immediate.read_eq_none_of_not_opens hc))]

end

/-- Induction along the cutting of a text: the text ends, a single character is cut off, or an
immediate is. -/
theorem spansFrom_induction (form : ImmediateForm) {P : Bool → List Char → Prop}
    (nil : ∀ b, P b [])
    (other : ∀ b c cs, (b = true ∨ Immediate.read form (c :: cs) = none) → P (isWord c) cs →
      P b (c :: cs))
    (immediate : ∀ m rest, Immediate.read form (m.chars ++ rest) = some m →
      P (endsInWord false m.chars) rest → P false (m.chars ++ rest)) :
    ∀ b cs, P b cs := by
  intro b cs
  generalize hn : cs.length = n
  induction n using Nat.strongRecOn generalizing b cs with
  | ind n ih =>
    cases cs with
    | nil => exact nil b
    | cons c cs =>
      have hlt : cs.length < n := by rw [← hn]; simp
      by_cases hnone : b = true ∨ Immediate.read form (c :: cs) = none
      · exact other b c cs hnone (ih _ hlt _ _ rfl)
      · rw [not_or, Bool.not_eq_true] at hnone
        obtain ⟨m, hm⟩ := Option.ne_none_iff_exists'.mp hnone.2
        obtain ⟨-, hshape, rest, hcs, -⟩ := Immediate.read_eq_some_iff.mp hm
        rw [hnone.1, hcs]
        refine immediate m rest (hcs ▸ hm) (ih _ ?_ _ _ rfl)
        have hlen := congrArg List.length hcs
        rw [List.length_append, hn] at hlen
        have := List.length_pos_iff.mpr hshape.chars_ne_nil
        omega

/-! ### What hiding does to a text -/

/-- What stands in front of a value, and what stands in front of the placeholder for it. -/
inductive Lead : ImmediateForm → List Char → List Char → Prop
  | blanks {gap : List Char} (hne : gap ≠ []) (h : ∀ c ∈ gap, isBlank c = true) :
      Lead .typed gap [' ']
  | paren : Lead .dereferenceable ['('] ['(']

/-- Digits, perhaps behind a minus sign. -/
def IsValue (value : List Char) : Prop := value ≠ [] ∧ ∀ c ∈ value, c = '-' ∨ isDigit c = true

/-- The second text is the first one with some values hidden behind the placeholder. -/
inductive Hidden (form : ImmediateForm) (placeholder : List Char) : List Char → List Char → Prop
  | nil : Hidden form placeholder [] []
  | char (c : Char) {xs ys : List Char} : Hidden form placeholder xs ys →
      Hidden form placeholder (c :: xs) (c :: ys)
  | value {lead lead' value xs ys : List Char} (hlead : Lead form lead lead')
      (hvalue : IsValue value) (hends : Immediate.endsWord xs = true) :
      Hidden form placeholder xs ys →
      Hidden form placeholder (lead ++ (value ++ xs)) (lead' ++ (placeholder ++ ys))

/-- The text with the immediates hidden that are not kept, if it follows another text. -/
def hideFrom (form : ImmediateForm) (keep : List Char → Bool) (placeholder : List Char)
    (afterWord : Bool) (cs : List Char) : List Char :=
  (spansFrom form afterWord 0 cs).flatMap fun
    | .immediate m => if keep m.value then m.chars else m.hidden placeholder
    | .other c => [c]

/-- Hiding the immediates of a whole text begins outside of a word. -/
theorem hideImmediates_eq (form : ImmediateForm) (keep : List Char → Bool)
    (placeholder cs : List Char) :
    hideImmediates form keep placeholder cs = hideFrom form keep placeholder false cs := rfl

section

variable {form : ImmediateForm} {keep : List Char → Bool} {placeholder : List Char}
  {afterWord : Bool} {c : Char} {cs rest xs ys : List Char} {m : Immediate}

/-- Where no immediate can be read, a character is left as it is. -/
theorem hideFrom_of_read_none (h : afterWord = true ∨ Immediate.read form (c :: cs) = none) :
    hideFrom form keep placeholder afterWord (c :: cs) =
      c :: hideFrom form keep placeholder (isWord c) cs := by
  rw [hideFrom, spansFrom_of_read_none h]
  rfl

/-- An immediate that is read is left as it is if its value is kept, and else gets the
placeholder. -/
theorem hideFrom_of_read (h : Immediate.read form (m.chars ++ rest) = some m) :
    hideFrom form keep placeholder false (m.chars ++ rest) =
      (if keep m.value then m.chars else m.hidden placeholder) ++
        hideFrom form keep placeholder (endsInWord false m.chars) rest := by
  rw [hideFrom, spansFrom_of_read h]
  rfl

/-- The same text can be put in front of both texts. -/
theorem Hidden.append_left (w : List Char) (h : Hidden form placeholder xs ys) :
    Hidden form placeholder (w ++ xs) (w ++ ys) := by
  induction w with
  | nil => exact h
  | cons c w ih => exact .char c ih

/-- An immediate and what hiding makes of it. -/
theorem Hidden.hidden_append (hm : m.Shape) (hf : m.form = form)
    (hr : Immediate.MayFollow form xs) (h : Hidden form placeholder xs ys) :
    Hidden form placeholder (m.chars ++ xs) (m.hidden placeholder ++ ys) := by
  cases hm with
  | @typed width gap sign digits hwidth hwidthDigit hgap hgapBlank hsign hdigits hdigit =>
    subst hf
    have hvalue : IsValue (sign ++ digits) := by
      refine ⟨by simp [hdigits], fun c hc => ?_⟩
      rcases List.mem_append.mp hc with hc | hc
      · rcases hsign with rfl | rfl
        · simp at hc
        · exact Or.inl (List.mem_singleton.mp hc)
      · exact Or.inr (hdigit c hc)
    have := (Hidden.value (Lead.blanks hgap hgapBlank) hvalue hr h).append_left ('i' :: width)
    simpa [Immediate.chars, Immediate.closing, Immediate.hidden] using this
  | @dereferenceable word digits hword hdigits hdigit =>
    subst hf
    have hvalue : IsValue digits := ⟨hdigits, fun c hc => Or.inr (hdigit c hc)⟩
    have hends : Immediate.endsWord (')' :: xs) = true := by
      rw [Immediate.endsWord_iff, stopsAt_cons]
      decide
    have := (Hidden.value Lead.paren hvalue hends (.char ')' h)).append_left word
    simpa [Immediate.chars, Immediate.closing, Immediate.hidden] using this

/-- What comes out of hiding is the text with some values hidden. -/
theorem hidden_hideFrom (form : ImmediateForm) (keep : List Char → Bool) (placeholder : List Char) :
    ∀ b cs, Hidden form placeholder cs (hideFrom form keep placeholder b cs) := by
  refine spansFrom_induction form (fun _ => .nil) (fun b c cs hnone ih => ?_)
    (fun m rest hread ih => ?_)
  · rw [hideFrom_of_read_none hnone]
    exact .char c ih
  · rw [hideFrom_of_read hread]
    obtain ⟨hf, hshape, rest', hrest, hfollow⟩ := Immediate.read_eq_some_iff.mp hread
    obtain rfl := List.append_cancel_left hrest
    split
    · exact ih.append_left _
    · exact ih.hidden_append hshape hf hfollow

/-- What hiding makes of a text is the text with some values hidden. -/
theorem hidden_hideImmediates (form : ImmediateForm) (keep : List Char → Bool)
    (placeholder cs : List Char) :
    Hidden form placeholder cs (hideImmediates form keep placeholder cs) :=
  hidden_hideFrom form keep placeholder false cs

/-! ### Identifiers outlive hiding -/

/-- What stands in front of a value has no sigils, and neither has what stands there afterwards. -/
theorem Lead.not_isSigil {lead lead' : List Char} (h : Lead form lead lead') :
    (∀ c ∈ lead, isSigil c = false) ∧ ∀ c ∈ lead', isSigil c = false := by
  cases h with
  | blanks hne h => exact ⟨fun c hc => isSigil_of_isBlank (h c hc), forall_mem_of_all (by decide)⟩
  | paren => exact ⟨forall_mem_of_all (by decide), forall_mem_of_all (by decide)⟩

/-- What stands in front of a value ends every name before it, and so does what stands there
afterwards. -/
theorem Lead.stopsAt_isNameChar {lead lead' : List Char} (h : Lead form lead lead')
    (cs : List Char) : StopsAt isNameChar (lead ++ cs) ∧ StopsAt isNameChar (lead' ++ cs) := by
  cases h with
  | blanks hne h =>
    exact ⟨(stopsAt_append_of_ne_nil hne).mpr
      (stopsAt_of_forall fun c hc => isNameChar_of_isBlank (h c hc)), stopsAt_cons.mpr (by decide)⟩
  | paren => exact ⟨stopsAt_cons.mpr (by decide), stopsAt_cons.mpr (by decide)⟩

/-- A value has no sigils. -/
theorem IsValue.not_isSigil {value : List Char} (h : IsValue value) :
    ∀ c ∈ value, isSigil c = false := by
  intro c hc
  rcases h.2 c hc with rfl | hd
  · decide
  · exact isSigil_of_isDigit hd

/-- Hiding touches no identifier, if the placeholder has no sigil. -/
theorem Hidden.identifiers_eq (h : Hidden form placeholder xs ys)
    (hp : ∀ c ∈ placeholder, isSigil c = false) :
    ys.takeWhile isNameChar = xs.takeWhile isNameChar ∧ identifiers ys = identifiers xs := by
  induction h with
  | nil => exact ⟨rfl, rfl⟩
  | char c h ih =>
    refine ⟨?_, ?_⟩
    · rw [List.takeWhile_cons, List.takeWhile_cons, ih.1]
    · rw [identifiers_cons, identifiers_cons, ih.1, ih.2]
  | value hlead hvalue hends h ih =>
    have hstop := hlead.stopsAt_isNameChar
    refine ⟨?_, ?_⟩
    · rw [takeWhile_of_stopsAt (hstop _).1, takeWhile_of_stopsAt (hstop _).2]
    · rw [identifiers_append_of_not_isSigil hlead.not_isSigil.2,
        identifiers_append_of_not_isSigil hp, ih.2,
        identifiers_append_of_not_isSigil hlead.not_isSigil.1,
        identifiers_append_of_not_isSigil hvalue.not_isSigil]

/-- Hiding values behind a placeholder without sigils does not change the identifiers. -/
theorem identifiers_hideImmediates (form : ImmediateForm) (keep : List Char → Bool)
    (hp : ∀ c ∈ placeholder, isSigil c = false) (cs : List Char) :
    identifiers (hideImmediates form keep placeholder cs) = identifiers cs :=
  ((hidden_hideImmediates form keep placeholder cs).identifiers_eq hp).2

end

end InstrGraph.Text

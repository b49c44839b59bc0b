import InstrGraph.Proofs.Text.Immediates

/-!
# Hidden constants stay hidden

An `Inert` placeholder cannot be taken for a value, nor for the beginning of an immediate. Then
hiding brings up no immediate that was not there, of either form (`immediatesFrom_of_hidden`), and
leaves of its own form only those that are kept (`keep_of_mem_immediatesFrom_hideFrom`). A text
whose immediates are all kept stays as it is (`hideFrom_eq_self`), so hiding a second time changes
nothing.
-/

namespace InstrGraph.Text

/-! ### The immediates of a text -/

/-- The immediates of a form in a text that follows another one. -/
def immediatesFrom (form : ImmediateForm) (afterWord : Bool) (cs : List Char) : List Immediate :=
  (spansFrom form afterWord 0 cs).filterMap fun
    | .immediate m => some m
    | .other _ => none

/-- Looking for immediates in a whole text begins outside of a word. -/
theorem immediates_eq (form : ImmediateForm) (cs : List Char) :
    immediates form cs = immediatesFrom form false cs := rfl

section

variable {form form' : ImmediateForm} {keep : List Char → Bool} {placeholder : List Char}
  {b : Bool} {c : Char} {cs rest xs ys run : List Char} {m : Immediate}

/-- A run without letters that open an immediate has none. -/
theorem immediatesFrom_append_of_not_opens (h : ∀ c ∈ run, Immediate.opens c = false) :
    immediatesFrom form b (run ++ rest) = immediatesFrom form (endsInWord b run) rest := by
  rw [immediatesFrom, spansFrom_append_of_not_opens h, List.filterMap_append, List.filterMap_map,
    immediatesFrom]
  have hnone : run.filterMap ((fun
      | Span.immediate m => some m
      | .other _ => none) ∘ Span.other) = [] := by
    rw [List.filterMap_eq_nil_iff]
    exact fun _ _ => rfl
  rw [hnone, List.nil_append]

/-- An immediate begins at a character or it does not, and the others are behind the character. -/
theorem immediatesFrom_cons (form : ImmediateForm) (b : Bool) (c : Char) (cs : List Char) :
    immediatesFrom form b (c :: cs) =
      (if b then none else Immediate.read form (c :: cs)).toList ++
        immediatesFrom form (isWord c) cs := by
  by_cases hnone : b = true ∨ Immediate.read form (c :: cs) = none
  · rw [immediatesFrom, spansFrom_of_read_none hnone]
    rcases hnone with rfl | hnone
    · rfl
    · rw [hnone]
      cases b <;> rfl
  · rw [not_or, Bool.not_eq_true] at hnone
    obtain ⟨m, hm⟩ := Option.ne_none_iff_exists'.mp hnone.2
    rw [hnone.1, hm]
    obtain ⟨-, hshape, rest, hcs, -⟩ := Immediate.read_eq_some_iff.mp hm
    cases hchars : m.chars with
    | nil => exact absurd hchars hshape.chars_ne_nil
    | cons d tail =>
      -- nothing begins inside of the immediate
      have htail : ∀ e ∈ tail, Immediate.opens e = false := by
        have := hshape.not_opens_of_mem_tail
        rwa [hchars] at this
      have hcs' : d = c ∧ cs = tail ++ rest := by
        rw [hchars, List.cons_append, List.cons.injEq] at hcs
        exact ⟨hcs.1.symm, hcs.2⟩
      rw [hcs] at hm ⊢
      rw [immediatesFrom, spansFrom_of_read hm, hcs'.2, immediatesFrom_append_of_not_opens htail,
        hchars, ← hcs'.1]
      rfl

/-- An immediate that is read is the first one, and the others follow behind it. -/
theorem immediatesFrom_of_read (h : Immediate.read form (m.chars ++ rest) = some m) :
    immediatesFrom form false (m.chars ++ rest) =
      m :: immediatesFrom form (endsInWord false m.chars) rest := by
  rw [immediatesFrom, spansFrom_of_read h]
  rfl

/-- A text whose immediates are all kept stays as it is. -/
theorem hideFrom_eq_self : ∀ b cs, (∀ m ∈ immediatesFrom form b cs, keep m.value = true) →
    hideFrom form keep placeholder b cs = cs := by
  refine spansFrom_induction form (fun _ _ => rfl) (fun b c cs hnone ih h => ?_)
    (fun m rest hread ih h => ?_)
  · rw [hideFrom_of_read_none hnone, ih fun m hm => h m ?_]
    rw [immediatesFrom_cons]
    exact List.mem_append_right _ hm
  · rw [immediatesFrom_of_read hread] at h
    rw [hideFrom_of_read hread, if_pos (h m List.mem_cons_self),
      ih fun m' hm' => h m' (List.mem_cons_of_mem _ hm')]

/-! ### Placeholders -/

/-- The characters that immediates are made of, between blanks and brackets. -/
def inImmediate (c : Char) : Bool :=
  isWord c || isBlank c || c == '-' || c == '(' || c == ')'

/-- The placeholder cannot be taken for a part of an immediate, nor for a blank, a word of its own
or the beginning of an attachment. -/
structure Inert (placeholder : List Char) : Prop where
  head : ∃ c rest, placeholder = c :: rest ∧ inImmediate c = false ∧ isNameChar c = false ∧ c ≠ '!'
  not_opens : ∀ c ∈ placeholder, Immediate.opens c = false
  closed : endsInWord true placeholder = false
  plain : ∀ c ∈ placeholder, isSigil c = false ∧ isBlank c = false ∧ c ≠ ',' ∧ c ≠ '=' ∧ c ≠ '"'

/-- The placeholder that is used unless another one is wanted. -/
theorem inert_default : Inert "<const>".toList where
  head := ⟨'<', "const>".toList, rfl, by decide⟩
  not_opens := forall_mem_of_all (by decide)
  closed := by decide
  plain := forall_mem_of_all (by decide)

/-- A placeholder is not empty. -/
theorem Inert.ne_nil (hp : Inert placeholder) : placeholder ≠ [] := by
  obtain ⟨c, rest, rfl, -⟩ := hp.head
  simp

/-- The character before does not matter for what the placeholder ends in. -/
theorem Inert.endsInWord_eq (hp : Inert placeholder) (b : Bool) :
    endsInWord b placeholder = false := by
  have hclosed := hp.closed
  obtain ⟨c, rest, rfl, -⟩ := hp.head
  exact hclosed

/-- Whether one is in a word behind two texts depends on the first one only through the second. -/
theorem endsInWord_append (b : Bool) (xs ys : List Char) :
    endsInWord b (xs ++ ys) = endsInWord (endsInWord b xs) ys := by
  induction xs generalizing b with
  | nil => rfl
  | cons c xs ih => exact ih (isWord c)

namespace Immediate

/-- Digits can be in immediates. -/
theorem inImmediate_of_isDigit {c : Char} (h : isDigit c = true) : inImmediate c = true := by
  simp [inImmediate, isWord_of_isDigit h]

/-- Blanks can be in immediates. -/
theorem inImmediate_of_isBlank {c : Char} (h : isBlank c = true) : inImmediate c = true := by
  simp [inImmediate, h]

/-- All characters of an immediate can be in one. -/
theorem Shape.inImmediate_of_mem (hm : m.Shape) : ∀ c ∈ m.chars, inImmediate c = true := by
  intro c hc
  cases hm with
  | typed hwidth hwidthDigit hgap hgapBlank hsign hdigits hdigit =>
    simp only [chars, closing, List.append_nil, List.cons_append, List.mem_cons,
      List.mem_append] at hc
    rcases hc with rfl | (hc | hc) | hc | hc
    · decide
    · exact inImmediate_of_isDigit (hwidthDigit c hc)
    · exact inImmediate_of_isBlank (hgapBlank c hc)
    · rcases hsign with rfl | rfl
      · simp at hc
      · rw [List.mem_singleton.mp hc]
        decide
    · exact inImmediate_of_isDigit (hdigit c hc)
  | dereferenceable hword hdigits hdigit =>
    simp only [chars, closing, List.mem_append, List.mem_singleton] at hc
    rcases hc with ((hc | rfl) | hc) | rfl
    · simp [inImmediate, (isWord_of_mem_attributeWords hword c hc).1]
    · decide
    · exact inImmediate_of_isDigit (hdigit c hc)
    · decide

/-- An immediate ends in a digit or a closing bracket. -/
theorem Shape.getLast_ne (hm : m.Shape) : ∀ c ∈ m.chars.getLast?, c ≠ ' ' ∧ c ≠ '(' := by
  have hdigit : ∀ c, isDigit c = true → c ≠ ' ' ∧ c ≠ '(' := by
    rintro c hc
    constructor <;> rintro rfl <;> exact absurd hc (by decide)
  intro c hc
  cases hm with
  | @typed width gap sign digits hwidth hwidthDigit hgap hgapBlank hsign hdigits hdigitAll =>
    have hchars : chars ⟨.typed, 'i' :: width, gap, sign ++ digits⟩ =
        ('i' :: width ++ gap ++ sign) ++ digits := by simp [chars, closing]
    rw [hchars, Option.mem_def, List.getLast?_append_of_ne_nil _ hdigits] at hc
    exact hdigit c (hdigitAll c (List.mem_of_getLast? hc))
  | dereferenceable =>
    simp only [chars, closing, List.getLast?_concat, Option.mem_def, Option.some.injEq] at hc
    subst hc
    decide

end Immediate

/-! ### Hiding brings up no immediates -/

/-- Hiding values does not change whether a word ends in front of the text. -/
theorem Hidden.endsWord_eq (h : Hidden form placeholder xs ys) :
    Immediate.endsWord ys = Immediate.endsWord xs := by
  cases h with
  | nil => rfl
  | char c h => rfl
  | @value lead _ _ _ _ hlead hvalue hends h =>
    have hword (c : Char) (hc : isWord c = false) (cs : List Char) :
        Immediate.endsWord (c :: cs) = true := by simp [Immediate.endsWord, hc]
    cases hlead with
    | blanks hne hgap =>
      cases lead with
      | nil => exact absurd rfl hne
      | cons c gap =>
        rw [List.cons_append, List.cons_append, hword c (isWord_of_isBlank (hgap c (by simp))),
          hword ' ' (by decide)]
    | paren => rfl

/-- A run of characters of an immediate stood in the text before, unless it could end in front of a
placeholder. -/
theorem Hidden.exists_append (hp : Inert placeholder) {run rest' : List Char}
    (hrun : ∀ c ∈ run, inImmediate c = true) (hlast : ∀ c ∈ run.getLast?, c ≠ ' ' ∧ c ≠ '(')
    (h : Hidden form placeholder xs (run ++ rest')) :
    ∃ rest, xs = run ++ rest ∧ Hidden form placeholder rest rest' := by
  induction run generalizing xs with
  | nil => exact ⟨xs, rfl, h⟩
  | cons c run ih =>
    generalize hys : c :: run ++ rest' = ys at h
    cases h with
    | nil => simp at hys
    | char d h =>
      rw [List.cons_append, List.cons.injEq] at hys
      obtain ⟨rfl, rfl⟩ := hys
      obtain ⟨rest, rfl, hrest⟩ := ih (fun e he => hrun e (List.mem_cons_of_mem _ he))
        (fun e he => by
          cases run with
          | nil => simp at he
          | cons d run => exact hlast e (by simpa using he)) h
      exact ⟨rest, rfl, hrest⟩
    | @value _ _ _ _ ys hlead hvalue hends h =>
      obtain ⟨p, tail, rfl, hp, -⟩ := hp.head
      -- the run goes beyond the character in front of the placeholder
      have hlead' : ∃ e, (e = ' ' ∨ e = '(') ∧ c :: (run ++ rest') = e :: (p :: (tail ++ ys)) := by
        cases hlead with
        | blanks => exact ⟨' ', Or.inl rfl, hys⟩
        | paren => exact ⟨'(', Or.inr rfl, hys⟩
      obtain ⟨e, he, heq⟩ := hlead'
      rw [List.cons.injEq] at heq
      cases run with
      | nil =>
        have := hlast c (by simp)
        rcases he with rfl | rfl
        · exact absurd heq.1 this.1
        · exact absurd heq.1 this.2
      | cons d run =>
        rw [List.cons_append, List.cons.injEq] at heq
        have hd := hrun d (by simp)
        rw [heq.2.1, hp] at hd
        exact absurd hd (by simp)

/-- What reads as an immediate after hiding was one before. -/
theorem Hidden.read_eq_some (hp : Inert placeholder) (h : Hidden form placeholder xs ys)
    (hread : Immediate.read form' ys = some m) : Immediate.read form' xs = some m := by
  obtain ⟨hf, hshape, rest', rfl, hfollow⟩ := Immediate.read_eq_some_iff.mp hread
  obtain ⟨rest, rfl, hrest⟩ :=
    Hidden.exists_append hp hshape.inImmediate_of_mem hshape.getLast_ne h
  refine Immediate.read_eq_some_iff.mpr ⟨hf, hshape, rest, rfl, ?_⟩
  cases form' with
  | typed =>
    show Immediate.endsWord rest = true
    rw [← hrest.endsWord_eq]
    exact hfollow
  | dereferenceable => trivial

/-- What stands in front of a value opens no immediate, and neither does what stands there
afterwards. -/
theorem Lead.not_opens {lead lead' : List Char} (h : Lead form lead lead') :
    (∀ c ∈ lead, Immediate.opens c = false) ∧ ∀ c ∈ lead', Immediate.opens c = false := by
  cases h with
  | blanks hne hgap =>
    refine ⟨fun c hc => ?_, forall_mem_of_all (by decide)⟩
    cases ho : Immediate.opens c with
    | false => rfl
    | true =>
      have := isWord_of_isBlank (hgap c hc)
      rw [Immediate.isWord_of_opens ho] at this
      exact this
  | paren => exact ⟨forall_mem_of_all (by decide), forall_mem_of_all (by decide)⟩

/-- A value opens no immediate. -/
theorem IsValue.not_opens {value : List Char} (h : IsValue value) :
    ∀ c ∈ value, Immediate.opens c = false := by
  intro c hc
  cases ho : Immediate.opens c with
  | false => rfl
  | true =>
    simp only [Immediate.opens, Bool.or_eq_true, beq_iff_eq] at ho
    rcases h.2 c hc with rfl | hd
    · rcases ho with ho | ho <;> simp at ho
    · rcases ho with rfl | rfl <;> exact absurd hd (by decide)

/-- Where a word ends anyway, it does not matter whether one is in a word. -/
theorem immediatesFrom_of_endsWord (h : Immediate.endsWord cs = true) (b b' : Bool) :
    immediatesFrom form b cs = immediatesFrom form b' cs := by
  rw [immediatesFrom, spansFrom_of_endsWord h b', immediatesFrom]

/-- Hiding the immediates of one form brings up none of either form. -/
theorem immediatesFrom_of_hidden (hp : Inert placeholder) (h : Hidden form placeholder xs ys)
    (b : Bool) : ∀ m ∈ immediatesFrom form' b ys, m ∈ immediatesFrom form' b xs := by
  induction h generalizing b with
  | nil => exact fun _ hm => hm
  | @char c xs ys h ih =>
    intro m hm
    rw [immediatesFrom_cons, List.mem_append] at hm ⊢
    refine hm.imp (fun hm => ?_) (ih _ m)
    cases b with
    | true => simp at hm
    | false =>
      rw [Option.mem_toList] at hm ⊢
      exact (Hidden.char c h).read_eq_some hp hm
  | @value lead lead' value xs ys hlead hvalue hends h ih =>
    intro m hm
    rw [immediatesFrom_append_of_not_opens hlead.not_opens.2,
      immediatesFrom_append_of_not_opens hp.not_opens, hp.endsInWord_eq] at hm
    rw [immediatesFrom_append_of_not_opens hlead.not_opens.1,
      immediatesFrom_append_of_not_opens hvalue.not_opens, immediatesFrom_of_endsWord hends _ false]
    exact ih false m hm

/-! ### Hiding leaves what is kept -/

/-- A text with nothing hidden is the text itself. -/
theorem Hidden.refl (form : ImmediateForm) (placeholder cs : List Char) :
    Hidden form placeholder cs cs := by
  simpa using Hidden.nil.append_left cs

namespace Immediate

/-- What stands in front of a value, and in front of the placeholder for it. -/
def front (m : Immediate) : List Char :=
  match m.form with
  | .typed => m.head ++ [' ']
  | .dereferenceable => m.head ++ ['(']

/-- A hidden immediate has the placeholder between what stands in front of it and what closes it. -/
theorem hidden_eq (m : Immediate) (placeholder : List Char) :
    m.hidden placeholder = m.front ++ (placeholder ++ closing m.form) := by
  obtain ⟨form, head, gap, value⟩ := m
  cases form <;> simp [hidden, front, closing]

/-- What stands in front of a value is shorter than the immediate. -/
theorem Shape.front_length_lt (hm : m.Shape) : m.front.length < m.chars.length := by
  cases hm with
  | typed hwidth hwidthDigit hgap hgapBlank hsign hdigits hdigit =>
    have hgap := List.length_pos_iff.mpr hgap
    have hdigits := List.length_pos_iff.mpr hdigits
    simp only [front, chars, closing, List.length_append, List.length_cons, List.length_nil]
    omega
  | dereferenceable hword hdigits hdigit =>
    simp only [front, chars, closing, List.length_append, List.length_cons, List.length_nil]
    omega

/-- Only the first character of a hidden immediate could begin one. -/
theorem Shape.front_eq (hm : m.Shape) :
    ∃ c tail, m.front = c :: tail ∧ ∀ d ∈ tail, opens d = false := by
  have htail := hm.not_opens_of_mem_tail
  cases hm with
  | @typed width gap sign digits hwidth hwidthDigit hgap hgapBlank hsign hdigits hdigit =>
    refine ⟨'i', width ++ [' '], rfl, fun d hd => ?_⟩
    rcases List.mem_append.mp hd with hd | hd
    · exact htail d (by simp [chars, hd])
    · rw [List.mem_singleton.mp hd]
      decide
  | @dereferenceable word digits hword hdigits hdigit =>
    cases word with
    | nil => simp [attributeWords] at hword
    | cons c word =>
      refine ⟨c, word ++ ['('], rfl, fun d hd => htail d ?_⟩
      rw [chars, List.cons_append, List.cons_append, List.cons_append, List.tail_cons]
      exact List.mem_append_left _ (List.mem_append_left _ hd)

end Immediate

/-- A hidden immediate does not read as one. -/
theorem read_hidden_append (hp : Inert placeholder) (hm : m.Shape) (hf : m.form = form)
    (hr : Immediate.MayFollow form ys) :
    Immediate.read form (m.hidden placeholder ++ ys) = none := by
  cases h : Immediate.read form (m.hidden placeholder ++ ys) with
  | none => rfl
  | some m' =>
    -- it would be the immediate that was there before, and the placeholder would be part of it
    have hold : Immediate.read form (m.chars ++ ys) = some m :=
      Immediate.read_eq_some_iff.mpr ⟨hf, hm, ys, rfl, hr⟩
    have hhidden := (Hidden.refl form placeholder ys).hidden_append hm hf hr
    obtain rfl : m = m' := Option.some.inj (hold.symm.trans (hhidden.read_eq_some hp h))
    obtain ⟨-, -, rest, heq, -⟩ := Immediate.read_eq_some_iff.mp h
    obtain ⟨p, tail, rfl, hhead, -⟩ := hp.head
    rw [Immediate.hidden_eq, List.append_assoc] at heq
    have hmem : p ∈ m.chars := by
      rcases List.append_eq_append_iff.mp heq with ⟨mid, hmid, hrest⟩ | ⟨mid, hmid, -⟩
      · rw [hmid]
        cases mid with
        | nil =>
          have := hm.front_length_lt
          rw [hmid, List.append_nil] at this
          exact absurd this (by simp)
        | cons d mid =>
          simp only [List.cons_append, List.cons.injEq] at hrest
          rw [hrest.1]
          simp
      · have := hm.front_length_lt
        rw [hmid, List.length_append] at this
        omega
    rw [hm.inImmediate_of_mem p hmem] at hhead
    exact absurd hhead (by simp)

/-- Nor does an immediate begin anywhere in it. -/
theorem immediatesFrom_hidden_append (hp : Inert placeholder) (hm : m.Shape) (hf : m.form = form)
    (hr : Immediate.MayFollow form ys) :
    immediatesFrom form false (m.hidden placeholder ++ ys) =
      immediatesFrom form (endsInWord false m.chars) ys := by
  have hread := read_hidden_append hp hm hf hr
  obtain ⟨c, tail, hfront, htail⟩ := hm.front_eq
  have hclosing : ∀ d ∈ Immediate.closing m.form, Immediate.opens d = false := by
    cases m.form <;> exact forall_mem_of_all (by decide)
  have hrest : ∀ d ∈ tail ++ (placeholder ++ Immediate.closing m.form),
      Immediate.opens d = false := by
    intro d hd
    rcases List.mem_append.mp hd with hd | hd
    · exact htail d hd
    · exact (List.mem_append.mp hd).elim (hp.not_opens d) (hclosing d)
  rw [Immediate.hidden_eq, hfront, List.cons_append, List.cons_append] at hread ⊢
  rw [immediatesFrom_cons, hread, immediatesFrom_append_of_not_opens hrest]
  show immediatesFrom form _ ys = _
  cases hm with
  | typed =>
    subst hf
    exact immediatesFrom_of_endsWord hr _ _
  | @dereferenceable word digits =>
    have hchars : Immediate.chars ⟨.dereferenceable, word, ['('], digits⟩ =
        (word ++ ['('] ++ digits) ++ [')'] := rfl
    rw [hchars, endsInWord_append false _ [')'], ← List.append_assoc,
      endsInWord_append _ (tail ++ placeholder)]
    rfl

/-- Every immediate that is left is kept. -/
theorem keep_of_mem_immediatesFrom_hideFrom (hp : Inert placeholder) :
    ∀ b cs, ∀ m ∈ immediatesFrom form b (hideFrom form keep placeholder b cs),
      keep m.value = true := by
  refine spansFrom_induction form
    (fun _ m hm => by simp [hideFrom, immediatesFrom, spansFrom] at hm)
    (fun b c cs hnone ih => ?_) (fun m rest hread ih => ?_)
  · intro m hm
    rw [hideFrom_of_read_none hnone, immediatesFrom_cons, List.mem_append] at hm
    rcases hm with hm | hm
    · -- an immediate that begins here began here before
      cases b with
      | true => simp at hm
      | false =>
        have hhidden := Hidden.char c (hidden_hideFrom form keep placeholder (isWord c) cs)
        have hread := hhidden.read_eq_some hp (Option.mem_toList.mp hm)
        rcases hnone with h | h
        · simp at h
        · rw [h] at hread
          simp at hread
    · exact ih m hm
  · obtain ⟨hf, hshape, rest', hrest, hfollow⟩ := Immediate.read_eq_some_iff.mp hread
    obtain rfl := List.append_cancel_left hrest
    intro m' hm'
    rw [hideFrom_of_read hread] at hm'
    have hfollow' : Immediate.MayFollow form
        (hideFrom form keep placeholder (endsInWord false m.chars) rest) := by
      cases form with
      | typed =>
        show Immediate.endsWord _ = true
        rw [(hidden_hideFrom _ keep placeholder _ rest).endsWord_eq]
        exact hfollow
      | dereferenceable => trivial
    cases hkeep : keep m.value with
    | true =>
      rw [hkeep, if_pos rfl] at hm'
      have hread' := Immediate.read_eq_some_iff.mpr ⟨hf, hshape, _, rfl, hfollow'⟩
      rw [immediatesFrom_of_read hread', List.mem_cons] at hm'
      rcases hm' with rfl | hm'
      · exact hkeep
      · exact ih m' hm'
    | false =>
      rw [hkeep, if_neg (by simp), immediatesFrom_hidden_append hp hshape hf hfollow'] at hm'
      exact ih m' hm'

end

end InstrGraph.Text

import InstrGraph.Proofs.Text.Hiding

/-!
# Other values in the same places

`Respelled` relates two texts that differ in the values of some immediates only, where neither value
is kept. An immediate stays one under any other value (`Immediate.Shape.withValue`), begins with the
same letter, and ends in a word exactly as before, so nothing around it is read in another way
(`Respelled.read_cons`).

Hiding one form takes away the differences in this form and leaves those in the other
(`Respelled.hideFrom`). After both forms have been hidden the texts are the same
(`hideBoth_respelled`), whatever the placeholder is.
-/

namespace InstrGraph.Text

/-- An integer that an immediate of a form may have: digits, behind a minus sign perhaps if it is
typed. -/
def IsInteger (form : ImmediateForm) (value : List Char) : Prop :=
  ∃ sign digits, value = sign ++ digits ∧ (sign = [] ∨ form = .typed ∧ sign = ['-']) ∧
    digits ≠ [] ∧ ∀ c ∈ digits, isDigit c = true

/-- An integer is a value. -/
theorem IsInteger.isValue {form : ImmediateForm} {value : List Char} (hv : IsInteger form value) :
    IsValue value := by
  obtain ⟨sign, digits, rfl, hsign, hdigits, hdigit⟩ := hv
  refine ⟨by simp [hdigits], fun c hc => ?_⟩
  rcases List.mem_append.mp hc with hc | hc
  · rcases hsign with rfl | ⟨-, rfl⟩
    · simp at hc
    · exact .inl (List.mem_singleton.mp hc)
  · exact .inr (hdigit c hc)

/-! ### An immediate under another value -/

/-- A run of word characters ends in one. -/
theorem endsInWord_of_forall {run : List Char} (hne : run ≠ []) (h : ∀ c ∈ run, isWord c = true)
    (b : Bool) : endsInWord b run = true := by
  induction run generalizing b with
  | nil => exact absurd rfl hne
  | cons c run ih =>
    cases run with
    | nil => exact h c List.mem_cons_self
    | cons d run => exact ih (by simp) (fun e he => h e (List.mem_cons_of_mem _ he)) (isWord c)

namespace Immediate

/-- The same immediate with another value. -/
def withValue (m : Immediate) (value : List Char) : Immediate := { m with value }

/-- The letter that immediates of a form begin with. -/
def opener : ImmediateForm → Char
  | .typed => 'i'
  | .dereferenceable => 'd'

/-- An immediate may begin with the letter of its form. -/
theorem opens_opener (form : ImmediateForm) : opens (opener form) = true := by
  cases form <;> decide

variable {m : Immediate} {form : ImmediateForm} {value cs rest xs ys : List Char}

/-- What may follow an immediate depends on whether a word ends there. -/
theorem mayFollow_congr (h : endsWord ys = endsWord xs) :
    MayFollow form ys ↔ MayFollow form xs := by
  cases form with
  | typed => rw [MayFollow, MayFollow, h]
  | dereferenceable => rfl

namespace Shape

/-- The value of an immediate is an integer that it may have. -/
theorem isInteger (hm : m.Shape) : IsInteger m.form m.value := by
  cases hm with
  | typed hwidth hwidthDigit hgap hgapBlank hsign hdigits hdigit =>
    exact ⟨_, _, rfl, hsign.imp_right fun h => ⟨rfl, h⟩, hdigits, hdigit⟩
  | dereferenceable hword hdigits hdigit => exact ⟨[], _, rfl, .inl rfl, hdigits, hdigit⟩

/-- An immediate may have any other integer of its form. -/
theorem withValue (hm : m.Shape) (hv : IsInteger m.form value) : (m.withValue value).Shape := by
  obtain ⟨sign, digits, rfl, hsign, hdigits, hdigit⟩ := hv
  cases hm with
  | typed hwidth hwidthDigit hgap hgapBlank =>
    exact .typed hwidth hwidthDigit hgap hgapBlank (hsign.imp_right And.right) hdigits hdigit
  | dereferenceable hword =>
    obtain rfl : sign = [] := hsign.resolve_right fun h => by simp at h
    exact .dereferenceable hword hdigits hdigit

/-- An immediate begins with the letter of its form, and nothing else in it could begin one. -/
theorem chars_eq (hm : m.Shape) :
    ∃ tail, m.chars = opener m.form :: tail ∧ ∀ c ∈ tail, opens c = false := by
  have htail := hm.not_opens_of_mem_tail
  suffices h : ∃ tail, m.chars = opener m.form :: tail by
    obtain ⟨tail, h⟩ := h
    rw [h] at htail
    exact ⟨tail, h, htail⟩
  cases hm with
  | typed => exact ⟨_, rfl⟩
  | dereferenceable hword =>
    simp only [attributeWords, List.mem_cons, List.not_mem_nil, or_false] at hword
    rcases hword with rfl | rfl <;> exact ⟨_, rfl⟩

/-- No word ends in front of an immediate. -/
theorem endsWord_append (hm : m.Shape) (xs : List Char) : endsWord (m.chars ++ xs) = false := by
  obtain ⟨tail, h, -⟩ := hm.chars_eq
  rw [h, List.cons_append, endsWord, isWord_of_opens (opens_opener _)]
  rfl

/-- A typed immediate ends in a word, the other form in a bracket. -/
theorem endsInWord_eq (hm : m.Shape) (b : Bool) :
    endsInWord b m.chars = decide (m.form = .typed) := by
  cases hm with
  | @typed width gap sign digits _ _ _ _ _ hdigits hdigit =>
    have hchars : chars ⟨.typed, 'i' :: width, gap, sign ++ digits⟩ =
        ('i' :: width ++ gap ++ sign) ++ digits := by simp [chars, closing]
    rw [hchars, endsInWord_append,
      endsInWord_of_forall hdigits fun c hc => isWord_of_isDigit (hdigit c hc)]
    rfl
  | dereferenceable =>
    rw [chars, endsInWord_append]
    rfl

/-- Behind an immediate one is in a word just if one is behind the same one with another value. -/
theorem endsInWord_withValue (hm : m.Shape) (hv : IsInteger m.form value) (b : Bool) :
    endsInWord b (m.withValue value).chars = endsInWord b m.chars := by
  rw [hm.endsInWord_eq, (hm.withValue hv).endsInWord_eq]
  rfl

/-- An immediate is not empty, so what follows it is shorter. -/
theorem length_lt (hm : m.Shape) (rest : List Char) : rest.length < (m.chars ++ rest).length := by
  have := List.length_pos_iff.mpr hm.chars_ne_nil
  rw [List.length_append]
  omega

/-- An immediate is read wherever its form allows what follows. -/
theorem read_append (hm : m.Shape) (h : MayFollow m.form rest) :
    read m.form (m.chars ++ rest) = some m :=
  read_eq_some_iff.mpr ⟨rfl, hm, rest, rfl, h⟩

end Shape

/-- Nothing of one form is read where an immediate of the other form may begin. -/
theorem read_opener_eq_none {form' : ImmediateForm} (hne : form' ≠ form) (cs : List Char) :
    read form (opener form' :: cs) = none := by
  cases h : read form (opener form' :: cs) with
  | none => rfl
  | some m =>
    obtain ⟨rfl, hm, rest, heq, -⟩ := read_eq_some_iff.mp h
    obtain ⟨tail, hc, -⟩ := hm.chars_eq
    rw [hc, List.cons_append, List.cons.injEq] at heq
    cases form' <;> cases hform : m.form <;> simp_all [opener]

end Immediate

section

variable {form : ImmediateForm} {keep : List Char → Bool} {placeholder : List Char} {b : Bool}
  {c : Char} {cs rest xs ys zs run : List Char} {m : Immediate}

/-- A run without letters that open an immediate is left as it is. -/
theorem hideFrom_append_of_not_opens (h : ∀ c ∈ run, Immediate.opens c = false) :
    hideFrom form keep placeholder b (run ++ rest) =
      run ++ hideFrom form keep placeholder (endsInWord b run) rest := by
  induction run generalizing b with
  | nil => rfl
  | cons c run ih =>
    rw [List.cons_append,
      hideFrom_of_read_none (Or.inr (Immediate.read_eq_none_of_not_opens (h c (by simp)))),
      ih fun d hd => h d (by simp [hd])]
    rfl

/-- Where nothing begins, nothing is hidden. -/
theorem hideFrom_of_not_opens (h : ∀ c ∈ run, Immediate.opens c = false) :
    hideFrom form keep placeholder b run = run := by
  induction run generalizing b with
  | nil => rfl
  | cons c run ih =>
    rw [hideFrom_of_read_none (.inr (Immediate.read_eq_none_of_not_opens (h c List.mem_cons_self))),
      ih fun d hd => h d (List.mem_cons_of_mem _ hd)]

/-- Hiding one form goes past the immediates of the other. -/
theorem hideFrom_append_of_form_ne (hm : m.Shape) (hne : m.form ≠ form) :
    hideFrom form keep placeholder b (m.chars ++ rest) =
      m.chars ++ hideFrom form keep placeholder (endsInWord b m.chars) rest := by
  obtain ⟨tail, hc, htail⟩ := hm.chars_eq
  rw [hc, List.cons_append, hideFrom_of_read_none (.inr (Immediate.read_opener_eq_none hne _)),
    hideFrom_append_of_not_opens htail]
  rfl

/-- An immediate of another form is left as it is. -/
theorem hideFrom_chars_of_form_ne (hm : m.Shape) (hne : m.form ≠ form) :
    hideFrom form keep placeholder b m.chars = m.chars := by
  obtain ⟨tail, hc, htail⟩ := hm.chars_eq
  rw [hc, hideFrom_of_read_none (.inr (Immediate.read_opener_eq_none hne _)),
    hideFrom_of_not_opens htail]

/-- Hiding immediates does not change whether a word ends in front of the text. -/
theorem endsWord_hideFrom (form : ImmediateForm) (keep : List Char → Bool)
    (placeholder : List Char) (b : Bool) (cs : List Char) :
    Immediate.endsWord (hideFrom form keep placeholder b cs) = Immediate.endsWord cs :=
  (hidden_hideFrom form keep placeholder b cs).endsWord_eq

/-- Hiding immediates does not change whether the text may follow an immediate. -/
theorem mayFollow_hideFrom {form' : ImmediateForm} :
    Immediate.MayFollow form' (hideFrom form keep placeholder b cs) ↔
      Immediate.MayFollow form' cs :=
  Immediate.mayFollow_congr (endsWord_hideFrom ..)

end

/-! ### Texts that differ in values -/

/-- The second text is the first one, where some immediates of the forms, with values that are not
kept, have other such values. `afterWord` tells whether the character before the texts is a word
character. -/
inductive Respelled (forms : List ImmediateForm) (keep : List Char → Bool) :
    (afterWord : Bool) → List Char → List Char → Prop
  | nil {b : Bool} : Respelled forms keep b [] []
  | char {b : Bool} (c : Char) {xs ys : List Char} (h : Respelled forms keep (isWord c) xs ys) :
    Respelled forms keep b (c :: xs) (c :: ys)
  | value {m : Immediate} {v xs ys : List Char} (hform : m.form ∈ forms)
      (hread : Immediate.read m.form (m.chars ++ xs) = some m) (hkeep : keep m.value = false)
      (hv : IsInteger m.form v) (hkeep' : keep v = false)
      (h : Respelled forms keep (endsInWord false m.chars) xs ys) :
    Respelled forms keep false (m.chars ++ xs) ((m.withValue v).chars ++ ys)

namespace Respelled

variable {forms : List ImmediateForm} {form : ImmediateForm} {keep : List Char → Bool} {b : Bool}
  {c : Char} {cs rest xs ys zs run placeholder : List Char} {m : Immediate}

/-- A word ends in front of both texts or of neither. -/
theorem endsWord_eq (h : Respelled forms keep b xs ys) :
    Immediate.endsWord ys = Immediate.endsWord xs := by
  cases h with
  | nil => rfl
  | char c h => rfl
  | value _ hread _ hv _ h =>
    obtain ⟨-, hm, -⟩ := Immediate.read_eq_some_iff.mp hread
    rw [hm.endsWord_append, (hm.withValue hv).endsWord_append]

/-- A text is the same as itself but for values that are not kept. -/
theorem refl (xs : List Char) : Respelled forms keep b xs xs := by
  induction xs generalizing b with
  | nil => exact .nil
  | cons c xs ih => exact .char c ih

/-- Which text has the other values does not matter. -/
theorem symm (h : Respelled forms keep b xs ys) : Respelled forms keep b ys xs := by
  induction h with
  | nil => exact .nil
  | char c h ih => exact .char c ih
  | @value m v xs ys hform hread hkeep hv hkeep' h ih =>
    obtain ⟨-, hm, rest, hrest, hfollow⟩ := Immediate.read_eq_some_iff.mp hread
    obtain rfl := List.append_cancel_left hrest
    have hm' := hm.withValue hv
    have hread' := hm'.read_append ((Immediate.mayFollow_congr h.endsWord_eq).mpr hfollow)
    rw [← hm.endsInWord_withValue hv] at ih
    exact .value (m := m.withValue v) hform hread' hkeep' hm.isInteger hkeep ih

/-- The same text can be put in front of both texts. -/
theorem append_left (run : List Char) (h : Respelled forms keep (endsInWord b run) xs ys) :
    Respelled forms keep b (run ++ xs) (run ++ ys) := by
  induction run generalizing b with
  | nil => exact h
  | cons c run ih => exact .char c (ih h)

/-- A run in which nothing begins is the same in both texts. -/
theorem of_append_left (hrun : ∀ c ∈ run, Immediate.opens c = false)
    (h : Respelled forms keep b (run ++ xs) zs) :
    ∃ ys, zs = run ++ ys ∧ Respelled forms keep (endsInWord b run) xs ys := by
  induction run generalizing b zs with
  | nil => exact ⟨zs, rfl, h⟩
  | cons c run ih =>
    generalize hxs : c :: run ++ xs = cs at h
    cases h with
    | nil => cases hxs
    | char d h =>
      obtain ⟨rfl, rfl⟩ := List.cons.inj hxs
      obtain ⟨ys, rfl, hys⟩ := ih (fun e he => hrun e (List.mem_cons_of_mem _ he)) h
      exact ⟨ys, rfl, hys⟩
    | @value m _ _ _ _ hread =>
      obtain ⟨-, hm, -⟩ := Immediate.read_eq_some_iff.mp hread
      obtain ⟨tail, hc, -⟩ := hm.chars_eq
      rw [hc] at hxs
      have hopens := hrun c List.mem_cons_self
      rw [(List.cons.inj hxs).1, Immediate.opens_opener] at hopens
      cases hopens

/-- In front of a character that is no word character it does not matter what came before. -/
theorem of_endsWord (h : Respelled forms keep b xs ys) (hends : Immediate.endsWord xs = true)
    (b' : Bool) : Respelled forms keep b' xs ys := by
  cases h with
  | nil => exact .nil
  | char c h => exact .char c h
  | value _ hread =>
    obtain ⟨-, hm, -⟩ := Immediate.read_eq_some_iff.mp hread
    rw [hm.endsWord_append] at hends
    cases hends

/-- Behind a character that both texts have, what is read in the one is read in the other. -/
theorem read_cons (h : Respelled forms keep (isWord c) xs ys)
    (hread : Immediate.read form (c :: xs) = some m) :
    ∃ rest rest', c :: xs = m.chars ++ rest ∧ c :: ys = m.chars ++ rest' ∧
      Immediate.read form (m.chars ++ rest') = some m ∧
      Respelled forms keep (endsInWord false m.chars) rest rest' := by
  obtain ⟨rfl, hm, rest, heq, hfollow⟩ := Immediate.read_eq_some_iff.mp hread
  obtain ⟨tail, hc, htail⟩ := hm.chars_eq
  rw [hc, List.cons_append, List.cons.injEq] at heq
  obtain ⟨rfl, rfl⟩ := heq
  obtain ⟨rest', rfl, hrest⟩ := h.of_append_left htail
  have hfollow' := (Immediate.mayFollow_congr hrest.endsWord_eq).mpr hfollow
  refine ⟨rest, rest', by rw [hc, List.cons_append], by rw [hc, List.cons_append],
    hm.read_append hfollow', ?_⟩
  rw [hc]
  exact hrest

/-- A hidden immediate in front of both texts. -/
theorem append_hidden (placeholder : List Char) (hm : m.Shape)
    (hfollow : Immediate.MayFollow m.form xs)
    (h : Respelled forms keep (endsInWord false m.chars) xs ys) :
    Respelled forms keep false (m.hidden placeholder ++ xs) (m.hidden placeholder ++ ys) := by
  refine append_left _ ?_
  cases hf : m.form with
  | typed =>
    rw [hf] at hfollow
    exact h.of_endsWord hfollow _
  | dereferenceable =>
    -- both end in the bracket
    have hends : endsInWord false (m.hidden placeholder) = endsInWord false m.chars := by
      rw [Immediate.hidden_eq, hf, endsInWord_append, endsInWord_append, hm.endsInWord_eq, hf]
      rfl
    rwa [hends]

/-- What hiding makes of the two texts differs in the values of the other form only. -/
theorem hideFrom (form : ImmediateForm) (placeholder : List Char)
    (h : Respelled forms keep b xs ys) :
    Respelled (forms.filter (· ≠ form)) keep b (Text.hideFrom form keep placeholder b xs)
      (Text.hideFrom form keep placeholder b ys) := by
  generalize hn : xs.length = n
  induction n using Nat.strongRecOn generalizing b xs ys with
  | ind n ih =>
    cases h with
    | nil => exact .nil
    | @char _ c xs ys h =>
      by_cases hnone : b = true ∨ Immediate.read form (c :: xs) = none
      · have hnone' : b = true ∨ Immediate.read form (c :: ys) = none := by
          refine hnone.imp_right fun hnone => ?_
          by_contra hsome
          obtain ⟨m, hm⟩ := Option.ne_none_iff_exists'.mp hsome
          obtain ⟨rest, rest', -, hxs, hread, -⟩ := h.symm.read_cons hm
          rw [hxs, hread] at hnone
          cases hnone
        rw [hideFrom_of_read_none hnone, hideFrom_of_read_none hnone']
        exact .char c (ih _ (by rw [← hn]; simp) h rfl)
      · rw [not_or, Bool.not_eq_true] at hnone
        obtain ⟨rfl, hnone⟩ := hnone
        obtain ⟨m, hread⟩ := Option.ne_none_iff_exists'.mp hnone
        obtain ⟨rest, rest', hxs, hys, hread', h⟩ := h.read_cons hread
        rw [hxs] at hread hn ⊢
        obtain ⟨rfl, hm, _, hrest, hfollow⟩ := Immediate.read_eq_some_iff.mp hread
        obtain rfl := List.append_cancel_left hrest
        have hih := ih _ (hn ▸ hm.length_lt rest) h rfl
        rw [hys, hideFrom_of_read hread, hideFrom_of_read hread']
        split
        · exact hih.append_left _
        · exact hih.append_hidden placeholder hm (mayFollow_hideFrom.mpr hfollow)
    | @value m v xs ys hform hread hkeep hv hkeep' h =>
      obtain ⟨-, hm, _, hrest, hfollow⟩ := Immediate.read_eq_some_iff.mp hread
      obtain rfl := List.append_cancel_left hrest
      have hm' := hm.withValue hv
      have hih := ih _ (hn ▸ hm.length_lt xs) h rfl
      have hends := hm.endsInWord_withValue hv false
      by_cases hf : m.form = form
      · subst hf
        have hread' := hm'.read_append ((Immediate.mayFollow_congr h.endsWord_eq).mpr hfollow)
        have hhidden : (m.withValue v).hidden placeholder = m.hidden placeholder := rfl
        rw [hideFrom_of_read hread, show m.form = (m.withValue v).form from rfl,
          hideFrom_of_read hread', hends, hkeep, if_neg (by simp), hhidden,
          show (m.withValue v).value = v from rfl, hkeep', if_neg (by simp)]
        exact hih.append_hidden placeholder hm (mayFollow_hideFrom.mpr hfollow)
      · rw [hideFrom_append_of_form_ne hm hf, hideFrom_append_of_form_ne hm' hf, hends]
        exact .value (List.mem_filter.mpr ⟨hform, by simpa using hf⟩)
          (hm.read_append (mayFollow_hideFrom.mpr hfollow)) hkeep hv hkeep' hih

/-- If there are no values to change, the texts are the same. -/
theorem eq_of_nil (h : Respelled [] keep b xs ys) : ys = xs := by
  induction h with
  | nil => rfl
  | char c h ih => rw [ih]
  | value hform => exact absurd hform List.not_mem_nil

end Respelled

/-- A text in which both forms have been hidden. -/
def hideBoth (keep : List Char → Bool) (placeholder cs : List Char) : List Char :=
  hideImmediates .dereferenceable keep placeholder (hideImmediates .typed keep placeholder cs)

/-- Where both forms are hidden it does not matter which values that are not kept have been
there. -/
theorem hideBoth_respelled {keep : List Char → Bool} {xs ys : List Char} (placeholder : List Char)
    (h : Respelled [.typed, .dereferenceable] keep false xs ys) :
    hideBoth keep placeholder ys = hideBoth keep placeholder xs := by
  have htyped := h.hideFrom .typed placeholder
  exact (htyped.hideFrom .dereferenceable placeholder).eq_of_nil

end InstrGraph.Text

import InstrGraph.Proofs.Text.Reach

/-!
# Placeholders that are read again

A placeholder may be any text, so hiding can bring up immediates of its own: the placeholder is read
as a value, has an immediate inside, or ends in `i32`, so that a number behind it becomes the value.
`Steady` excludes these three and nothing else. Then whatever the hidden text shows is kept
(`Steady.keep_of_mem_hideBoth`), and if some value is not kept, no other placeholder has this
property (`steady_iff`). A placeholder in which there is no digit is steady (`Steady.of_no_digit`).
-/

namespace InstrGraph.Text

namespace Immediate

/-- What stands in front of a value, at its shortest. -/
def bareFront : ImmediateForm → List Char
  | .typed => "i1 ".toList
  | .dereferenceable => "dereferenceable(".toList

/-- An immediate with this front. -/
def bare (form : ImmediateForm) (value : List Char) : Immediate :=
  match form with
  | .typed => ⟨.typed, "i1".toList, [' '], value⟩
  | .dereferenceable => ⟨.dereferenceable, "dereferenceable".toList, ['('], value⟩

variable {form : ImmediateForm} {value : List Char}

/-- A bare immediate has its form. -/
@[simp] theorem form_bare : (bare form value).form = form := by cases form <;> rfl

/-- A bare immediate has its value. -/
@[simp] theorem value_bare : (bare form value).value = value := by cases form <;> rfl

/-- What stands in front of the value of a bare immediate. -/
@[simp] theorem front_bare : (bare form value).front = bareFront form := by cases form <;> rfl

/-- A bare immediate has the shape of one. -/
theorem shape_bare (hv : IsInteger form value) : (bare form value).Shape := by
  obtain ⟨sign, digits, rfl, hsign, hdigits, hdigit⟩ := hv
  cases form with
  | typed =>
    exact .typed (List.cons_ne_nil '1' []) (forall_mem_of_all (by decide))
      (List.cons_ne_nil ' ' []) (forall_mem_of_all (by decide)) (hsign.imp_right And.right) hdigits
      hdigit
  | dereferenceable =>
    obtain rfl : sign = [] := hsign.resolve_right fun h => by simp at h
    exact .dereferenceable (List.mem_cons_of_mem _ List.mem_cons_self) hdigits hdigit

end Immediate

/-- An integer that may be in an attribute may also have a type. -/
theorem IsInteger.of_dereferenceable {value : List Char} (hv : IsInteger .dereferenceable value)
    (form : ImmediateForm) : IsInteger form value := by
  obtain ⟨sign, digits, rfl, hsign, hdigits, hdigit⟩ := hv
  obtain rfl : sign = [] := hsign.resolve_right fun h => by simp at h
  exact ⟨[], digits, rfl, .inl rfl, hdigits, hdigit⟩

/-- Where a value might stand, the placeholder shows none that would be hidden, and it does not end
in what may stand in front of one. -/
structure Steady (keep : List Char → Bool) (placeholder : List Char) : Prop where
  values : ∀ form, ∀ m ∈ immediates form
    (Immediate.bareFront form ++ (placeholder ++ Immediate.closing form)), keep m.value = true
  closed : endsInWidth false (Immediate.bareFront .typed ++ placeholder) = false

instance (keep : List Char → Bool) (placeholder : List Char) :
    Decidable (Steady keep placeholder) :=
  decidable_of_iff
    ((∀ form ∈ [ImmediateForm.typed, .dereferenceable], ∀ m ∈ immediates form
          (Immediate.bareFront form ++ (placeholder ++ Immediate.closing form)),
        keep m.value = true) ∧
      endsInWidth false (Immediate.bareFront .typed ++ placeholder) = false)
    ⟨fun h => ⟨fun form => h.1 form (by cases form <;> decide), h.2⟩,
      fun h => ⟨fun form _ => h.values form, h.closed⟩⟩

section

variable {form : ImmediateForm} {keep : List Char → Bool} {placeholder : List Char} {b : Bool}
  {c : Char} {cs rest xs ys run v : List Char} {m k : Immediate}

/-- A text behind a bare type ends like a width if it is blank or ends so itself. -/
theorem endsInWidth_bareFront (xs : List Char) :
    endsInWidth false (Immediate.bareFront .typed ++ xs) =
      (xs.all isBlank || endsInWidth false xs) := by
  have hv : IsInteger .typed ['7'] := ⟨[], _, rfl, .inl rfl, by simp, forall_mem_of_all (by decide)⟩
  have hfront := endsInWidth_front (Immediate.shape_bare hv) Immediate.form_bare xs
  rwa [Immediate.front_bare] at hfront

namespace Steady

variable (hp : Steady keep placeholder)

include hp

/-- All values that a steady placeholder shows in the place of a value are kept. -/
theorem keep_front (hm : m.Shape) : ∀ k ∈ immediatesFrom m.form false
    (m.front ++ (placeholder ++ Immediate.closing m.form)), keep k.value = true := by
  intro k hk
  have hbare := Immediate.shape_bare hm.isInteger
  obtain ⟨k', hk', hvalue⟩ := hm.exists_mem_immediatesFrom_front hbare Immediate.form_bare hk
  rw [Immediate.front_bare] at hk'
  rw [← hvalue]
  exact hp.values _ k' hk'

/-- A steady placeholder is not blank and does not end like a width. -/
theorem not_endsInWidth :
    placeholder.all isBlank = false ∧ endsInWidth false placeholder = false := by
  have hclosed := hp.closed
  rw [endsInWidth_bareFront] at hclosed
  exact Bool.or_eq_false_iff.mp hclosed

/-- Whatever is read in the placeholder alone is kept. -/
theorem keep_typed : ∀ k ∈ immediatesFrom .typed false placeholder, keep k.value = true := by
  intro k hk
  refine hp.values .typed k ?_
  rw [immediates_eq, Immediate.closing, List.append_nil]
  exact mem_immediatesFrom_append hk

/-- What is read where an immediate is hidden is kept, or it is read behind it. -/
theorem keep_or_mem_of_mem_hidden (hm : m.Shape) (hfollow : Immediate.MayFollow m.form ys)
    (hk : k ∈ immediatesFrom m.form false (m.hidden placeholder ++ ys)) :
    keep k.value = true ∨ k ∈ immediatesFrom m.form (endsInWord false m.chars) ys := by
  have hfront := hp.keep_front hm
  rw [Immediate.hidden_eq, ← List.append_assoc] at hk
  rw [← List.append_assoc] at hfront
  rw [hm.endsInWord_eq]
  cases hf : m.form with
  | typed =>
    rw [hf] at hk hfront hfollow
    simp only [Immediate.closing, List.append_nil] at hk hfront
    have hclosed : endsInWidth false (m.front ++ placeholder) = false := by
      rw [endsInWidth_front hm hf, hp.not_endsInWidth.1, hp.not_endsInWidth.2]
      rfl
    rw [immediatesFrom_append_typed hclosed hfollow, List.mem_append] at hk
    exact hk.imp (hfront k) fun hk => immediatesFrom_of_endsWord hfollow _ _ ▸ hk
  | dereferenceable =>
    rw [hf] at hk hfront
    simp only [Immediate.closing] at hk hfront
    rw [immediatesFrom_append_dereferenceable, List.mem_append] at hk
    exact hk.imp_left (hfront k)

/-- What hiding leaves of its own form is kept. -/
theorem keep_of_mem_hideFrom : ∀ b cs, ∀ k ∈ immediatesFrom form b
    (hideFrom form keep placeholder b cs), keep k.value = true := by
  refine spansFrom_induction form
    (fun _ k hk => by simp [hideFrom, immediatesFrom, spansFrom] at hk)
    (fun b c cs hnone ih k hk => ?_) (fun m rest hread ih k hk => ?_)
  · rw [hideFrom_of_read_none hnone, immediatesFrom_cons, read_cons_hideFrom, List.mem_append] at hk
    refine hk.elim (fun hk => ?_) (ih k)
    rcases hnone with rfl | hnone
    · simp at hk
    · simp [hnone] at hk
  · obtain ⟨rfl, hm, _, hrest, hfollow⟩ := Immediate.read_eq_some_iff.mp hread
    obtain rfl := List.append_cancel_left hrest
    rw [hideFrom_of_read hread] at hk
    cases hkeep : keep m.value with
    | true =>
      rw [hkeep, if_pos rfl,
        immediatesFrom_of_read (hm.read_append (mayFollow_hideFrom.mpr hfollow)),
        List.mem_cons] at hk
      rcases hk with rfl | hk
      · exact hkeep
      · exact ih k hk
    | false =>
      rw [hkeep, if_neg (by simp)] at hk
      exact (hp.keep_or_mem_of_mem_hidden hm (mayFollow_hideFrom.mpr hfollow) hk).elim id (ih k)

/-- A typed immediate that comes up where attributes are hidden is kept. -/
theorem keep_or_mem_of_mem_hideFrom : ∀ b cs, ∀ k ∈ immediatesFrom .typed b
    (hideFrom .dereferenceable keep placeholder b cs),
      keep k.value = true ∨ k ∈ immediatesFrom .typed b cs := by
  refine spansFrom_induction .dereferenceable
    (fun _ k hk => by simp [hideFrom, immediatesFrom, spansFrom] at hk)
    (fun b c cs hnone ih k hk => ?_) (fun m rest hread ih k hk => ?_)
  · rw [hideFrom_of_read_none hnone, immediatesFrom_cons, read_cons_hideFrom, List.mem_append] at hk
    rw [immediatesFrom_cons, List.mem_append]
    rcases hk with hk | hk
    · exact .inr (.inl hk)
    · exact (ih k hk).imp_right .inr
  · obtain ⟨hf, hm, -⟩ := Immediate.read_eq_some_iff.mp hread
    have hne : m.form ≠ .typed := by simp [hf]
    rw [hideFrom_of_read hread] at hk
    rw [immediatesFrom_append_of_form_ne hm hne]
    split at hk
    · rw [immediatesFrom_append_of_form_ne hm hne] at hk
      exact ih k hk
    · have hclosing : ∀ c ∈ [')'], Immediate.opens c = false := forall_mem_of_all (by decide)
      -- no typed immediate begins in the front, and none reaches from the placeholder beyond it
      rw [Immediate.hidden_eq, List.append_assoc, immediatesFrom_front_of_form_ne hm hne, hf,
        Immediate.closing, List.append_assoc, immediatesFrom_append_typed hp.not_endsInWidth.2 rfl,
        immediatesFrom_append_of_not_opens hclosing, List.mem_append] at hk
      rw [hm.endsInWord_eq, hf] at hk ih ⊢
      exact hk.elim (fun hk => .inl (hp.keep_typed k hk)) (ih k)

end Steady

/-- Hiding puts the placeholder behind the front of a value that is not kept. -/
theorem hideFrom_bare (hv : IsInteger form v) (hkeep : keep v = false)
    (hrest : Immediate.MayFollow form rest) (hopens : ∀ c ∈ rest, Immediate.opens c = false) :
    hideFrom form keep placeholder false ((Immediate.bare form v).chars ++ rest) =
      Immediate.bareFront form ++ (placeholder ++ Immediate.closing form) ++ rest := by
  have hm := Immediate.shape_bare hv
  have hfollow : Immediate.MayFollow (Immediate.bare form v).form rest := by
    rwa [Immediate.form_bare]
  have hread := hm.read_append hfollow
  rw [Immediate.form_bare] at hread
  rw [hideFrom_of_read hread, hideFrom_of_not_opens hopens, Immediate.value_bare, hkeep,
    if_neg (by simp), Immediate.hidden_eq, Immediate.front_bare, Immediate.form_bare]

/-- If all that is ever shown is kept, then the placeholder is steady: what it shows is shown by the
text that has one number, or two of which the second stands behind the placeholder. -/
theorem Steady.of_keep (hv : IsInteger .dereferenceable v) (hkeep : keep v = false)
    (h : ∀ cs form, ∀ m ∈ immediates form (hideBoth keep placeholder cs), keep m.value = true) :
    Steady keep placeholder := by
  have htyped (rest : List Char) (hrest : Immediate.endsWord rest = true)
      (hopens : ∀ c ∈ rest, Immediate.opens c = false) :
      ∀ m ∈ immediatesFrom .typed false (Immediate.bareFront .typed ++ placeholder ++ rest),
        keep m.value = true := by
    intro m hm
    refine h ((Immediate.bare .typed v).chars ++ rest) .typed m ?_
    refine mem_immediatesFrom_hideFrom false _ m ?_
    rw [hideImmediates_eq, hideFrom_bare (hv.of_dereferenceable .typed) hkeep hrest hopens,
      Immediate.closing, List.append_nil]
    exact hm
  refine ⟨fun form m hm => ?_, ?_⟩
  · cases form with
    | typed =>
      rw [immediates_eq, Immediate.closing, List.append_nil] at hm
      exact htyped [] rfl (by simp) m (by rwa [List.append_nil])
    | dereferenceable =>
      refine h (Immediate.bare .dereferenceable v).chars .dereferenceable m ?_
      have hne : (Immediate.bare .dereferenceable v).form ≠ .typed := by simp
      have hhide : hideFrom .dereferenceable keep placeholder false
          ((Immediate.bare .dereferenceable v).chars ++ []) =
            Immediate.bareFront .dereferenceable ++
              (placeholder ++ Immediate.closing .dereferenceable) ++ [] :=
        hideFrom_bare hv hkeep trivial (List.forall_mem_nil _)
      rw [List.append_nil, List.append_nil] at hhide
      rw [hideBoth, hideImmediates_eq, hideImmediates_eq,
        hideFrom_chars_of_form_ne (Immediate.shape_bare hv) hne, hhide]
      exact hm
  · by_contra hopen
    rw [Bool.not_eq_false] at hopen
    obtain ⟨k, hk, rfl⟩ := exists_value_of_endsInWidth hopen (hv.of_dereferenceable .typed)
    have hopens : ∀ c ∈ ' ' :: k.value, Immediate.opens c = false :=
      List.forall_mem_cons.mpr ⟨by decide, hv.isValue.not_opens⟩
    rw [htyped (' ' :: k.value) rfl hopens k hk] at hkeep
    cases hkeep

namespace Steady

variable (hp : Steady keep placeholder)

include hp

/-- All values that are left when values are hidden are kept. -/
theorem keep_of_mem_hideBoth (cs : List Char) :
    ∀ form, ∀ m ∈ immediates form (hideBoth keep placeholder cs), keep m.value = true := by
  intro form m hm
  cases form with
  | typed =>
    exact (hp.keep_or_mem_of_mem_hideFrom false _ m hm).elim id
      (hp.keep_of_mem_hideFrom false cs m)
  | dereferenceable => exact hp.keep_of_mem_hideFrom false _ m hm

/-- Hiding values behind a steady placeholder a second time changes nothing. -/
theorem hideBoth_hideBoth (cs : List Char) :
    hideBoth keep placeholder (hideBoth keep placeholder cs) = hideBoth keep placeholder cs := by
  have hkeep := hp.keep_of_mem_hideBoth cs
  have hself (form : ImmediateForm) :
      hideImmediates form keep placeholder (hideBoth keep placeholder cs) =
        hideBoth keep placeholder cs := hideFrom_eq_self false _ (hkeep form)
  rw [hideBoth, hself, hself]

end Steady

/-- If some value is not kept, then exactly the steady placeholders show nothing that would be
hidden and let a text stay as it is when it is hidden again. -/
theorem steady_iff (hv : IsInteger .dereferenceable v) (hkeep : keep v = false) :
    (∀ cs, (∀ form, ∀ m ∈ immediates form (hideBoth keep placeholder cs), keep m.value = true) ∧
        hideBoth keep placeholder (hideBoth keep placeholder cs) = hideBoth keep placeholder cs) ↔
      Steady keep placeholder :=
  ⟨fun h => .of_keep hv hkeep fun cs => (h cs).1,
    fun hp cs => ⟨hp.keep_of_mem_hideBoth cs, hp.hideBoth_hideBoth cs⟩⟩

/-- A number behind this placeholder becomes its value. -/
example : ¬ Steady (fun _ => false) "x, i32".toList := by decide

/-! ### Placeholders without digits -/

/-- Digits that are not none are counted. -/
theorem countP_isDigit_pos {digits : List Char} (hne : digits ≠ [])
    (h : ∀ c ∈ digits, isDigit c = true) : 0 < digits.countP isDigit := by
  obtain ⟨c, hc⟩ := List.exists_mem_of_ne_nil digits hne
  exact List.countP_pos_iff.mpr ⟨c, hc, h c hc⟩

/-- An immediate has digits in it, a typed one also in front of its value. -/
theorem Immediate.Shape.lt_countP (hm : m.Shape) :
    (Immediate.bareFront m.form).countP isDigit < m.chars.countP isDigit := by
  cases hm with
  | typed hwidth hwidthDigit _ _ _ hdigits hdigit =>
    have hbare : (Immediate.bareFront .typed).countP isDigit = 1 := by decide
    have hwidthPos := countP_isDigit_pos hwidth hwidthDigit
    have hdigitsPos := countP_isDigit_pos hdigits hdigit
    simp only [Immediate.chars, hbare, List.countP_append, List.countP_cons]
    omega
  | dereferenceable _ hdigits hdigit =>
    have hbare : (Immediate.bareFront .dereferenceable).countP isDigit = 0 := by decide
    have hdigitsPos := countP_isDigit_pos hdigits hdigit
    simp only [Immediate.chars, hbare, List.countP_append]
    omega

/-- A placeholder without digits that is not blank is steady, whatever is kept. -/
theorem Steady.of_no_digit (hdigit : ∀ c ∈ placeholder, isDigit c = false)
    (hblank : placeholder.all isBlank = false) : Steady keep placeholder := by
  refine ⟨fun form k hk => ?_, ?_⟩
  · -- what is read in there has more digits than stand there
    obtain ⟨rfl, hm, hinfix⟩ := infix_of_mem_immediatesFrom hk
    have hmore := hm.lt_countP
    have hle := hinfix.sublist.countP_le (p := isDigit)
    have hplaceholder : placeholder.countP isDigit = 0 :=
      List.countP_eq_zero.mpr fun c hc => by simp [hdigit c hc]
    have hclosing : (Immediate.closing k.form).countP isDigit = 0 := by
      cases k.form <;> decide
    rw [List.countP_append, List.countP_append, hplaceholder, hclosing] at hle
    omega
  · rw [endsInWidth_bareFront, hblank, endsInWidth_of_no_digit hdigit]
    rfl

end

end InstrGraph.Text

import InstrGraph.Proofs.Text.Values

/-!
# How far immediates reach

A text can be cut in two where nothing that begins in the first part reaches into the second: a
typed immediate only reaches beyond a text that ends in its width (`immediatesFrom_append_typed`),
an attribute never beyond a closing bracket (`immediatesFrom_append_dereferenceable`).

What is read behind the front of one immediate is read behind the front of any other of its form
(`Immediate.Shape.exists_mem_immediatesFrom_front`), and hiding what follows changes nothing about
what begins at a character (`read_cons_hideFrom`).
-/

namespace InstrGraph.Text

namespace Immediate

variable {form : ImmediateForm} {cs rest ys : List Char} {m : Immediate}

/-! ### Cutting a text in two -/

/-- A text in front of what may follow an immediate may follow one if it may by itself. -/
theorem mayFollow_append (hys : MayFollow form ys) :
    MayFollow form (rest ++ ys) ↔ MayFollow form rest := by
  cases form with
  | dereferenceable => rfl
  | typed =>
    cases rest with
    | nil => exact ⟨fun _ => rfl, fun _ => hys⟩
    | cons c rest => rfl

/-- What stands behind a text does not matter for what is read at its front, unless an immediate
reaches from the one into the other. -/
theorem read_append_eq (hys : MayFollow form ys)
    (hno : ∀ m : Immediate, m.Shape → m.form = form → ∀ back, m.chars = cs ++ back → back ≠ [] →
      ¬ back <+: ys) : read form (cs ++ ys) = read form cs := by
  cases h : read form cs with
  | some m =>
    obtain ⟨hf, hm, rest, rfl, hfollow⟩ := read_eq_some_iff.mp h
    exact read_eq_some_iff.mpr
      ⟨hf, hm, rest ++ ys, List.append_assoc .., (mayFollow_append hys).mpr hfollow⟩
  | none =>
    cases h' : read form (cs ++ ys) with
    | none => rfl
    | some m =>
      have hnone (rest : List Char) (hcs : cs = m.chars ++ rest) (hf : m.form = form)
          (hm : m.Shape) (hfollow : MayFollow form rest) : False := by
        rw [read_eq_some_iff.mpr ⟨hf, hm, rest, hcs, hfollow⟩] at h
        cases h
      obtain ⟨hf, hm, rest, heq, hfollow⟩ := read_eq_some_iff.mp h'
      rcases List.append_eq_append_iff.mp heq with ⟨back, hback, rfl⟩ | ⟨rest, hcs, rfl⟩
      · by_cases hne : back = []
        · subst hne
          rw [List.append_nil] at hback
          exact (hnone [] (by simp [hback]) hf hm (by cases form <;> trivial)).elim
        · exact absurd (List.prefix_append back rest) (hno m hm hf back hback hne)
      · exact (hnone rest hcs hf hm ((mayFollow_append hys).mp hfollow)).elim

/-- The whole text may stand in front of a typed value: `i` and digits, and perhaps blanks. -/
def isWidth : List Char → Bool
  | 'i' :: cs => !(cs.takeWhile isDigit).isEmpty && (cs.dropWhile isDigit).all isBlank
  | _ => false

/-- The letter of types and digits, with blanks behind them, are a width. -/
theorem isWidth_of_append {width gap : List Char} (hne : width ≠ [])
    (hwidth : ∀ c ∈ width, isDigit c = true) (hgap : ∀ c ∈ gap, isBlank c = true) :
    isWidth ('i' :: (width ++ gap)) = true := by
  have hstop : StopsAt isDigit gap := stopsAt_of_blank (fun _ => isDigit_of_isBlank) hgap
  rw [isWidth, takeWhile_append_of_stopsAt hwidth hstop, dropWhile_append_of_stopsAt hwidth hstop]
  simpa [hne] using hgap

/-- A width is the letter of types and digits, perhaps with blanks behind them. -/
theorem exists_of_isWidth (h : isWidth cs = true) :
    ∃ width gap, cs = 'i' :: (width ++ gap) ∧ width ≠ [] ∧ (∀ c ∈ width, isDigit c = true) ∧
      ∀ c ∈ gap, isBlank c = true := by
  unfold isWidth at h
  split at h
  · rename_i cs
    rw [Bool.and_eq_true, List.all_eq_true] at h
    exact ⟨_, _, by rw [List.takeWhile_append_dropWhile], by simpa using h.1,
      fun c hc => List.mem_takeWhile_imp hc, h.2⟩
  · cases h

/-- No word ends in front of digits. -/
theorem endsWord_of_digits {digits : List Char} (hne : digits ≠ [])
    (h : ∀ c ∈ digits, isDigit c = true) (rest : List Char) :
    endsWord (digits ++ rest) = false := by
  cases digits with
  | nil => exact absurd rfl hne
  | cons c digits => simp [endsWord, isWord_of_isDigit (h c List.mem_cons_self)]

/-- A cut through two texts is behind the first one, or it leaves some of it behind. -/
theorem cut_cases {xs ys back : List Char} (h : xs ++ ys = cs ++ back) :
    (∃ front, cs = xs ++ front ∧ ys = front ++ back) ∨
      ∃ run, run ≠ [] ∧ xs = cs ++ run ∧ back = run ++ ys := by
  rcases List.append_eq_append_iff.mp h with h | ⟨run, hxs, hback⟩
  · exact .inl h
  · cases run with
    | nil => exact .inl ⟨[], by simpa using hxs.symm, by simpa using hback.symm⟩
    | cons c run => exact .inr ⟨c :: run, List.cons_ne_nil c run, hxs, hback⟩

/-- A typed immediate can be cut in front of a character that is no word character only behind its
width. -/
theorem Shape.isWidth_of_chars_eq (hm : m.Shape) (hf : m.form = .typed) {back : List Char}
    (hcs : cs ≠ []) (hback : back ≠ []) (hends : endsWord back = true)
    (h : m.chars = cs ++ back) : isWidth cs = true := by
  cases hm with
  | dereferenceable => cases hf
  | @typed width gap sign digits hwidth hwidthDigit hgap hgapBlank hsign hdigits hdigit =>
    -- the cut is in front of no digit
    have hnoDigits {run rest : List Char} (hne : run ≠ []) (hrun : ∀ c ∈ run, isDigit c = true) :
        back ≠ run ++ rest := by
      rintro rfl
      rw [endsWord_of_digits hne hrun] at hends
      cases hends
    cases cs with
    | nil => exact absurd rfl hcs
    | cons c front =>
      simp only [chars, closing, List.append_nil, List.cons_append, List.append_assoc,
        List.cons.injEq] at h
      obtain ⟨rfl, h⟩ := h
      rcases cut_cases h with ⟨front, rfl, hgapCut⟩ | ⟨run, hne, rfl, heq⟩
      · rcases cut_cases hgapCut with ⟨front, rfl, hsignCut⟩ | ⟨run, -, rfl, -⟩
        · rcases cut_cases hsignCut with ⟨front, rfl, rfl⟩ | ⟨run, hne, rfl, -⟩
          · exact (hnoDigits hback (fun c hc => hdigit c (List.mem_append_right _ hc))
              (List.append_nil back).symm).elim
          · obtain rfl : front = [] := by
              rcases hsign with hsign | hsign
              · exact (List.append_eq_nil_iff.mp hsign).1
              · exact ((List.append_eq_singleton_iff.mp hsign).resolve_right fun h => hne h.2).1
            rw [List.append_nil]
            exact isWidth_of_append hwidth hwidthDigit hgapBlank
        · exact isWidth_of_append hwidth hwidthDigit fun c hc =>
            hgapBlank c (List.mem_append_left _ hc)
      · exact (hnoDigits hne (fun c hc => hwidthDigit c (List.mem_append_right _ hc)) heq).elim

/-- A closing bracket is the last character of an immediate. -/
theorem Shape.closing_not_mem_dropLast (hm : m.Shape) (hf : m.form = .dereferenceable) :
    ')' ∉ m.chars.dropLast := by
  cases hm with
  | typed => cases hf
  | @dereferenceable word digits hword hdigits hdigit =>
    have hword : ')' ∉ word := (by decide : ∀ w ∈ attributeWords, ')' ∉ w) word hword
    have hdigits : ')' ∉ digits := fun hc => absurd (hdigit _ hc) (by decide)
    rw [chars, closing, List.dropLast_concat]
    simp [hword, hdigits]

end Immediate

/-- The text ends in what may stand in front of a typed value, as a word of its own. -/
def endsInWidth : (afterWord : Bool) → List Char → Bool
  | _, [] => false
  | afterWord, c :: cs => (!afterWord && Immediate.isWidth (c :: cs)) || endsInWidth (isWord c) cs

section

variable {form form' : ImmediateForm} {keep : List Char → Bool} {placeholder : List Char} {b : Bool}
  {c : Char} {cs rest xs ys run v : List Char} {m k : Immediate}

/-- One more character in front of a text that is cut in two. -/
theorem immediatesFrom_cons_append {ms : List Immediate}
    (hread : b = false → Immediate.read form (c :: xs ++ ys) = Immediate.read form (c :: xs))
    (h : immediatesFrom form (isWord c) (xs ++ ys) = immediatesFrom form (isWord c) xs ++ ms) :
    immediatesFrom form b (c :: xs ++ ys) = immediatesFrom form b (c :: xs) ++ ms := by
  rw [immediatesFrom_cons form b c xs, List.append_assoc, ← h]
  cases b with
  | true => exact immediatesFrom_cons ..
  | false =>
    rw [← hread rfl]
    exact immediatesFrom_cons ..

/-- If a text does not end in a width, then no typed immediate reaches beyond it, unless in the
middle of a word. -/
theorem immediatesFrom_append_typed (hxs : endsInWidth b xs = false)
    (hys : Immediate.endsWord ys = true) :
    immediatesFrom .typed b (xs ++ ys) =
      immediatesFrom .typed b xs ++ immediatesFrom .typed (endsInWord b xs) ys := by
  induction xs generalizing b with
  | nil => rfl
  | cons c xs ih =>
    rw [endsInWidth, Bool.or_eq_false_iff] at hxs
    refine immediatesFrom_cons_append (fun hb => ?_) (ih hxs.2)
    have hfollow : Immediate.MayFollow .typed ys := hys
    refine Immediate.read_append_eq hfollow fun m hm hf back hback hne hpre => ?_
    obtain ⟨rest, rfl⟩ := hpre
    have hends : Immediate.endsWord back = true := by
      cases back with
      | nil => exact absurd rfl hne
      | cons d back => exact hys
    rw [hm.isWidth_of_chars_eq hf (List.cons_ne_nil c xs) hne hends hback, hb] at hxs
    cases hxs.1

/-- No attribute reaches beyond a closing bracket. -/
theorem immediatesFrom_append_dereferenceable (xs ys : List Char) :
    immediatesFrom .dereferenceable b (xs ++ [')'] ++ ys) =
      immediatesFrom .dereferenceable b (xs ++ [')']) ++
        immediatesFrom .dereferenceable false ys := by
  induction xs generalizing b with
  | nil =>
    rw [List.nil_append, List.singleton_append, immediatesFrom_cons, immediatesFrom_cons,
      Immediate.read_eq_none_of_not_opens (by decide),
      Immediate.read_eq_none_of_not_opens (by decide)]
    cases b <;> rfl
  | cons c xs ih =>
    rw [List.cons_append]
    refine immediatesFrom_cons_append (fun _ => ?_) ih
    have hfollow : Immediate.MayFollow .dereferenceable ys := trivial
    refine Immediate.read_append_eq hfollow fun m hm hf back hback hne _ => ?_
    refine hm.closing_not_mem_dropLast hf ?_
    rw [hback, List.dropLast_append_of_ne_nil hne]
    simp

/-- What is read in the second part of a text is read in the text. -/
theorem mem_immediatesFrom_append (h : k ∈ immediatesFrom form (endsInWord b xs) ys) :
    k ∈ immediatesFrom form b (xs ++ ys) := by
  induction xs generalizing b with
  | nil => exact h
  | cons c xs ih =>
    rw [List.cons_append, immediatesFrom_cons]
    exact List.mem_append_right _ (ih h)

/-- An immediate of one form has none of the other form inside. -/
theorem immediatesFrom_append_of_form_ne (hm : m.Shape) (hne : m.form ≠ form) :
    immediatesFrom form b (m.chars ++ rest) =
      immediatesFrom form (endsInWord b m.chars) rest := by
  obtain ⟨tail, hc, htail⟩ := hm.chars_eq
  rw [hc, List.cons_append, immediatesFrom_cons, Immediate.read_opener_eq_none hne,
    immediatesFrom_append_of_not_opens htail]
  cases b <;> rfl

/-- Nothing ends in a width that has no digits. -/
theorem endsInWidth_of_no_digit (hdigit : ∀ c ∈ cs, isDigit c = false) (b : Bool) :
    endsInWidth b cs = false := by
  induction cs generalizing b with
  | nil => rfl
  | cons c cs ih =>
    rw [endsInWidth, ih fun d hd => hdigit d (List.mem_cons_of_mem _ hd), Bool.or_false,
      Bool.and_eq_false_imp]
    intro _
    by_contra hwidth
    rw [Bool.not_eq_false] at hwidth
    obtain ⟨width, gap, hcs, hne, hwidthDigit, -⟩ := Immediate.exists_of_isWidth hwidth
    obtain ⟨d, hd⟩ := List.exists_mem_of_ne_nil width hne
    have hnone := hdigit d (by simp [hcs, hd])
    rw [hwidthDigit d hd] at hnone
    cases hnone

/-- Behind a run without letters that open an immediate, a width can only end within a word. -/
theorem endsInWidth_append_of_not_opens (hrun : ∀ c ∈ run, Immediate.opens c = false) :
    endsInWidth b (run ++ xs) = endsInWidth (endsInWord b run) xs := by
  induction run generalizing b with
  | nil => rfl
  | cons c run ih =>
    have hwidth : Immediate.isWidth (c :: (run ++ xs)) = false := by
      unfold Immediate.isWidth
      split
      · rename_i heq
        obtain ⟨rfl, -⟩ := List.cons.inj heq
        exact absurd (hrun _ List.mem_cons_self) (by decide)
      · rfl
    rw [List.cons_append, endsInWidth, hwidth, Bool.and_false, Bool.false_or,
      ih fun d hd => hrun d (List.mem_cons_of_mem _ hd)]
    rfl

/-- A number behind a text that ends in a width is its value. -/
theorem exists_value_of_endsInWidth (h : endsInWidth b cs = true) (hv : IsInteger .typed v) :
    ∃ k ∈ immediatesFrom .typed b (cs ++ ' ' :: v), k.value = v := by
  induction cs generalizing b with
  | nil => cases h
  | cons c cs ih =>
    rw [endsInWidth, Bool.or_eq_true, Bool.and_eq_true, Bool.not_eq_true'] at h
    rw [List.cons_append, immediatesFrom_cons]
    rcases h with ⟨rfl, hwidth⟩ | h
    · obtain ⟨width, gap, hcs, hne, hdigit, hblank⟩ := Immediate.exists_of_isWidth hwidth
      obtain ⟨sign, digits, rfl, hsign, hdigits, hdigits'⟩ := hv
      have hgap : ∀ c ∈ gap ++ [' '], isBlank c = true := by
        intro c hc
        rcases List.mem_append.mp hc with hc | hc
        · exact hblank c hc
        · rw [List.mem_singleton.mp hc]
          decide
      have hm : Immediate.Shape ⟨.typed, 'i' :: width, gap ++ [' '], sign ++ digits⟩ :=
        .typed hne hdigit (by simp) hgap (hsign.imp_right And.right) hdigits hdigits'
      have hread := hm.read_append (show Immediate.MayFollow .typed [] from rfl)
      have hchars : Immediate.chars ⟨.typed, 'i' :: width, gap ++ [' '], sign ++ digits⟩ ++ [] =
          c :: (cs ++ ' ' :: (sign ++ digits)) := by
        rw [← List.cons_append, hcs]
        simp [Immediate.chars, Immediate.closing]
      rw [hchars] at hread
      exact ⟨_, List.mem_append_left _ (Option.mem_toList.mpr hread), rfl⟩
    · obtain ⟨k, hk, hvalue⟩ := ih h
      exact ⟨k, List.mem_append_right _ hk, hvalue⟩

/-- What is read in a text stands in it. -/
theorem infix_of_mem_immediatesFrom (hk : k ∈ immediatesFrom form b cs) :
    k.form = form ∧ k.Shape ∧ k.chars <:+: cs := by
  induction cs generalizing b with
  | nil => simp [immediatesFrom, spansFrom] at hk
  | cons c cs ih =>
    rw [immediatesFrom_cons, List.mem_append] at hk
    rcases hk with hk | hk
    · have hread : Immediate.read form (c :: cs) = some k := by
        cases b with
        | true => simp at hk
        | false => exact Option.mem_toList.mp hk
      obtain ⟨hf, hm, rest, hcs, -⟩ := Immediate.read_eq_some_iff.mp hread
      exact ⟨hf, hm, [], rest, by rw [hcs]; rfl⟩
    · obtain ⟨hf, hm, hinfix⟩ := ih hk
      exact ⟨hf, hm, hinfix.trans (List.suffix_cons c cs).isInfix⟩

/-! ### What hiding leaves to be read -/

namespace Immediate.Shape

/-- What stands in front of a value begins with the letter of the form, and nothing else in it could
begin an immediate. -/
theorem front_eq_opener (hm : m.Shape) :
    ∃ tail, m.front = opener m.form :: tail ∧ (∀ c ∈ tail, opens c = false) ∧
      ∀ b, endsInWord b tail = false := by
  obtain ⟨c, tail, hfront, htail⟩ := hm.front_eq
  suffices h : c = opener m.form ∧ ∀ b, endsInWord b tail = false from
    ⟨tail, h.1 ▸ hfront, htail, h.2⟩
  cases hm with
  | typed =>
    obtain ⟨rfl, htailEq⟩ := List.cons.inj hfront
    refine ⟨rfl, fun b => ?_⟩
    rw [← htailEq]
    exact endsInWord_append ..
  | dereferenceable hword =>
    simp only [attributeWords, List.mem_cons, List.not_mem_nil, or_false] at hword
    rcases hword with rfl | rfl <;> obtain ⟨rfl, rfl⟩ := List.cons.inj hfront <;>
      exact ⟨rfl, fun _ => rfl⟩

/-- What stands in front of the gap of an immediate are word characters. -/
theorem isWord_head (hm : m.Shape) : ∀ c ∈ m.head, isWord c = true := by
  cases hm with
  | typed _ hwidthDigit =>
    exact List.forall_mem_cons.mpr ⟨by decide, fun c hc => isWord_of_isDigit (hwidthDigit c hc)⟩
  | @dereferenceable word _ hword =>
    exact fun c hc => (isWord_of_mem_attributeWords hword c hc).1

/-- The gap of an immediate ends a word. -/
theorem stopsAt_gap (hm : m.Shape) (rest : List Char) : StopsAt isWord (m.gap ++ rest) := by
  cases hm with
  | typed _ _ hgap hgapBlank =>
    exact (stopsAt_append_of_ne_nil hgap).mpr
      (stopsAt_of_blank (fun _ => isWord_of_isBlank) hgapBlank)
  | dereferenceable => exact stopsAt_cons.mpr (by decide)

/-- The word in front may be that of any other immediate of the form. -/
theorem withHead {m' : Immediate} (hm : m.Shape) (hm' : m'.Shape) (hf : m'.form = m.form) :
    Shape { m with head := m'.head } := by
  cases hm with
  | typed hwidth hwidthDigit hgap hgapBlank hsign hdigits hdigit =>
    cases hm' with
    | typed hwidth' hwidthDigit' =>
      exact .typed hwidth' hwidthDigit' hgap hgapBlank hsign hdigits hdigit
    | dereferenceable => cases hf
  | dereferenceable hword hdigits hdigit =>
    cases hm' with
    | typed => cases hf
    | dereferenceable hword' => exact .dereferenceable hword' hdigits hdigit

/-- What is read behind the front of one immediate is read behind that of any other. -/
theorem exists_read_front {m' : Immediate} (hm : m.Shape) (hm' : m'.Shape) (hf : m'.form = m.form)
    (hread : read m.form (m.front ++ xs) = some k) :
    ∃ k', read m.form (m'.front ++ xs) = some k' ∧ k'.value = k.value := by
  obtain ⟨hkf, hk, rest, heq, hfollow⟩ := read_eq_some_iff.mp hread
  obtain ⟨c, hc, hfront⟩ : ∃ c, isWord c = false ∧
      ∀ m' : Immediate, m'.form = m.form → m'.front = m'.head ++ [c] := by
    cases hform : m.form with
    | typed => exact ⟨' ', by decide, fun m' hm' => by rw [front, hm']⟩
    | dereferenceable => exact ⟨'(', by decide, fun m' hm' => by rw [front, hm']⟩
  -- both words end where the first other character stands
  have hcut : m.head ++ c :: xs = k.head ++ (k.gap ++ (k.value ++ closing k.form ++ rest)) := by
    rw [hfront m rfl] at heq
    simpa [chars] using heq
  have hdrop := congrArg (List.dropWhile isWord) hcut
  rw [dropWhile_append_of_stopsAt hm.isWord_head (stopsAt_cons.mpr hc),
    dropWhile_append_of_stopsAt hk.isWord_head (hk.stopsAt_gap _)] at hdrop
  refine ⟨{ k with head := m'.head }, read_eq_some_iff.mpr
    ⟨hkf, hk.withHead hm' (hf.trans hkf.symm), rest, ?_, hfollow⟩, rfl⟩
  rw [hfront m' hf, List.append_assoc, List.singleton_append, hdrop]
  simp [chars]

/-- What is found behind the front of one immediate is found behind that of any other. -/
theorem exists_mem_immediatesFrom_front {m' : Immediate} (hm : m.Shape) (hm' : m'.Shape)
    (hf : m'.form = m.form) (hk : k ∈ immediatesFrom m.form false (m.front ++ xs)) :
    ∃ k' ∈ immediatesFrom m.form false (m'.front ++ xs), k'.value = k.value := by
  obtain ⟨tail, hfront, htail, hends⟩ := hm.front_eq_opener
  obtain ⟨tail', hfront', htail', hends'⟩ := hm'.front_eq_opener
  have hread : (∃ k', read m.form (m.front ++ xs) = some k' ∧ k'.value = k.value) ∨
      k ∈ immediatesFrom m.form false xs := by
    rw [hfront, List.cons_append, immediatesFrom_cons, immediatesFrom_append_of_not_opens htail,
      hends, List.mem_append] at hk
    rw [hfront]
    exact hk.imp_left fun hk => ⟨k, Option.mem_toList.mp hk, rfl⟩
  rcases hread with ⟨k₁, hread, hvalue₁⟩ | hk
  · obtain ⟨k₂, hread', hvalue₂⟩ := hm.exists_read_front hm' hf hread
    refine ⟨k₂, ?_, hvalue₂.trans hvalue₁⟩
    rw [hfront', List.cons_append] at hread' ⊢
    rw [immediatesFrom_cons, hread']
    exact List.mem_append_left _ (by simp)
  · refine ⟨k, ?_, rfl⟩
    rw [hfront', List.cons_append, immediatesFrom_cons,
      immediatesFrom_append_of_not_opens htail', hends']
    exact List.mem_append_right _ hk

end Immediate.Shape

/-- Behind the front of a typed immediate only what follows decides. -/
theorem endsInWidth_front (hm : m.Shape) (hf : m.form = .typed) (xs : List Char) :
    endsInWidth false (m.front ++ xs) = (xs.all isBlank || endsInWidth false xs) := by
  obtain ⟨tail, hfront, htail, hends⟩ := hm.front_eq_opener
  have hwidth : Immediate.isWidth (m.front ++ xs) = xs.all isBlank := by
    cases hm with
    | dereferenceable => cases hf
    | @typed width gap sign digits hwidth hwidthDigit =>
      have hstop : StopsAt isDigit (' ' :: xs) := stopsAt_cons.mpr (by decide)
      have hcs : Immediate.front ⟨.typed, 'i' :: width, gap, sign ++ digits⟩ ++ xs =
          'i' :: (width ++ ' ' :: xs) := by simp [Immediate.front]
      rw [hcs, Immediate.isWidth, takeWhile_append_of_stopsAt hwidthDigit hstop,
        dropWhile_append_of_stopsAt hwidthDigit hstop]
      simp [hwidth, show isBlank ' ' = true by decide]
  rw [hfront, List.cons_append] at hwidth ⊢
  rw [endsInWidth, hwidth, endsInWidth_append_of_not_opens htail, hends]
  rfl

/-- Nothing of the other form is read in the front of an immediate. -/
theorem immediatesFrom_front_of_form_ne (hm : m.Shape) (hne : m.form ≠ form) :
    immediatesFrom form false (m.front ++ xs) = immediatesFrom form false xs := by
  obtain ⟨tail, hfront, htail, hends⟩ := hm.front_eq_opener
  rw [hfront, List.cons_append, immediatesFrom_cons, Immediate.read_opener_eq_none hne,
    immediatesFrom_append_of_not_opens htail, hends]
  rfl

/-- Hiding leaves the characters alone in front of which nothing begins. -/
theorem hideFrom_eq_append (hrun : ∀ c ∈ run, Immediate.opens c = false)
    (h : hideFrom form keep placeholder b cs = run ++ ys) :
    ∃ rest, cs = run ++ rest ∧ ys = hideFrom form keep placeholder (endsInWord b run) rest := by
  induction run generalizing b cs with
  | nil => exact ⟨cs, rfl, h.symm⟩
  | cons d run ih =>
    cases cs with
    | nil => cases h
    | cons c cs =>
      by_cases hnone : b = true ∨ Immediate.read form (c :: cs) = none
      · rw [hideFrom_of_read_none hnone] at h
        obtain ⟨rfl, htail⟩ := List.cons.inj h
        obtain ⟨rest, rfl, hys⟩ := ih (fun e he => hrun e (List.mem_cons_of_mem _ he)) htail
        exact ⟨rest, rfl, hys⟩
      · rw [not_or, Bool.not_eq_true] at hnone
        obtain ⟨rfl, hnone⟩ := hnone
        obtain ⟨m, hread⟩ := Option.ne_none_iff_exists'.mp hnone
        obtain ⟨-, hm, rest, hcs, -⟩ := Immediate.read_eq_some_iff.mp hread
        rw [hcs] at hread h
        rw [hideFrom_of_read hread] at h
        -- shown or hidden, an immediate begins with its letter
        have hhead : d = Immediate.opener m.form := by
          obtain ⟨tail, hchars, -⟩ := hm.chars_eq
          obtain ⟨tail', hfront, -⟩ := hm.front_eq_opener
          rw [Immediate.hidden_eq, hchars, hfront] at h
          split at h <;> exact (List.cons.inj h).1.symm
        have hopens := hrun d List.mem_cons_self
        rw [hhead, Immediate.opens_opener] at hopens
        cases hopens

/-- Hiding what stands behind a character changes nothing about what begins there. -/
theorem read_cons_hideFrom :
    Immediate.read form' (c :: hideFrom form keep placeholder (isWord c) cs) =
      Immediate.read form' (c :: cs) := by
  refine Option.ext fun m => ?_
  rw [Immediate.read_eq_some_iff, Immediate.read_eq_some_iff]
  refine and_congr_right fun _ => and_congr_right fun hm => ?_
  obtain ⟨tail, hchars, htail⟩ := hm.chars_eq
  simp only [hchars, List.cons_append, List.cons.injEq]
  constructor
  · rintro ⟨rest, ⟨hc, hrest⟩, hfollow⟩
    obtain ⟨rest', rfl, rfl⟩ := hideFrom_eq_append htail hrest
    exact ⟨rest', ⟨hc, rfl⟩, mayFollow_hideFrom.mp hfollow⟩
  · rintro ⟨rest, ⟨hc, rfl⟩, hfollow⟩
    exact ⟨_, ⟨hc, hideFrom_append_of_not_opens htail⟩, mayFollow_hideFrom.mpr hfollow⟩

/-- What is read is still read where attributes are hidden. -/
theorem mem_immediatesFrom_hideFrom : ∀ b cs, ∀ k ∈ immediatesFrom .typed b cs,
    k ∈ immediatesFrom .typed b (hideFrom .dereferenceable keep placeholder b cs) := by
  refine spansFrom_induction .dereferenceable (fun _ k hk => hk)
    (fun b c cs hnone ih k hk => ?_) (fun m rest hread ih k hk => ?_)
  · rw [immediatesFrom_cons, List.mem_append] at hk
    rw [hideFrom_of_read_none hnone, immediatesFrom_cons, read_cons_hideFrom, List.mem_append]
    exact hk.imp_right (ih k)
  · obtain ⟨hf, hm, -⟩ := Immediate.read_eq_some_iff.mp hread
    have hne : m.form ≠ .typed := by simp [hf]
    rw [immediatesFrom_append_of_form_ne hm hne] at hk
    rw [hideFrom_of_read hread]
    split
    · rw [immediatesFrom_append_of_form_ne hm hne]
      exact ih k hk
    · refine mem_immediatesFrom_append ?_
      have hends : endsInWord false (m.hidden placeholder) = endsInWord false m.chars := by
        rw [Immediate.hidden_eq, hf, endsInWord_append, endsInWord_append, hm.endsInWord_eq, hf]
        rfl
      rw [hends]
      exact ih k hk

end

end InstrGraph.Text

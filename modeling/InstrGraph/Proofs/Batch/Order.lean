import InstrGraph.Batch
import Mathlib.Data.List.Nodup
import Mathlib.Data.List.Perm.Basic

/-!
# Working in any order

What is known of a single step, in a state that says which items are done, holds for a whole pass
over the items in any order (`mapCarryIn_spec`); and what every step preserves is preserved by the
pass (`mapCarryIn_preserves`). A schedule that leaves nothing out and does nothing twice is
`Schedule.IsComplete`.
-/

namespace InstrGraph

variable {α β γ σ : Type} {f : σ → α → β × σ}

/-! ### A pass over a list -/

/-- If each step keeps an invariant and has the result that it should, the whole pass does. -/
theorem mapCarry_spec_of_append {I : List α → σ → Prop} (view : β → γ) (g : α → γ)
    {items : List α}
    (step : ∀ done a rest s, done ++ a :: rest = items → I done s →
      view (f s a).1 = g a ∧ I (done ++ [a]) (f s a).2)
    {done rest : List α} {s : σ} (hitems : done ++ rest = items) (h : I done s) :
    (mapCarry f s rest).1.map view = rest.map g ∧ I items (mapCarry f s rest).2 := by
  induction rest generalizing done s with
  | nil =>
    obtain rfl : done = items := by simpa using hitems
    exact ⟨rfl, h⟩
  | cons a rest ih =>
    obtain ⟨hresult, hI⟩ := step done a rest s hitems h
    obtain ⟨hresults, hIs⟩ := ih (by simpa using hitems) hI
    refine ⟨?_, hIs⟩
    rw [List.map_cons, ← hresult, ← hresults]
    rfl

/-- What each step of a pass preserves, the pass preserves. -/
theorem mapCarry_preserves {I : σ → Prop} {items : List α}
    (step : ∀ a ∈ items, ∀ s, I s → I (f s a).2) {s : σ} (h : I s) :
    I (mapCarry f s items).2 := by
  induction items generalizing s with
  | nil => exact h
  | cons a items ih =>
    exact ih (fun x hx => step x (List.mem_cons_of_mem _ hx)) (step a (List.mem_cons_self ..) s h)

/-! ### Positions -/

/-- The items at some positions, with their positions. -/
def itemsAt (order : List Nat) (items : List α) : List (Nat × α) :=
  order.filterMap fun i => (items[i]?).map fun a => (i, a)

/-- The items at some positions are those of the list at these positions. -/
theorem mem_itemsAt {order : List Nat} {items : List α} {i : Nat} {a : α} :
    (i, a) ∈ itemsAt order items ↔ i ∈ order ∧ items[i]? = some a := by
  rw [itemsAt, List.mem_filterMap]
  constructor
  · rintro ⟨j, hj, hja⟩
    obtain ⟨x, hx, heq⟩ := Option.map_eq_some_iff.mp hja
    obtain ⟨rfl, rfl⟩ := Prod.mk.inj heq
    exact ⟨hj, hx⟩
  · rintro ⟨hi, ha⟩
    exact ⟨i, hi, by simp [ha]⟩

/-- Going through all positions is going through the items. -/
theorem filterMap_getElem?_range (items : List α) (g : α → β) :
    (List.range items.length).filterMap (fun i => (items[i]?).map g) = items.map g := by
  induction items with
  | nil => rfl
  | cons a items ih =>
    rw [List.length_cons, List.range_succ_eq_map, List.filterMap_cons]
    simp only [List.getElem?_cons_zero, Option.map_some, List.filterMap_map, List.map_cons]
    congr 1

/-- At all positions, in whatever order, all items are worked on. -/
theorem itemsAt_perm {order : List Nat} {items : List α}
    (h : order.Perm (List.range items.length)) :
    ((itemsAt order items).map Prod.snd).Perm items := by
  have hsnd (order : List Nat) :
      (itemsAt order items).map Prod.snd = order.filterMap fun i => (items[i]?).map id := by
    simp [itemsAt, List.map_filterMap, Function.comp_def]
  have hall := filterMap_getElem?_range items id
  rw [hsnd]
  rw [List.map_id] at hall
  exact (h.filterMap _).trans (.of_eq hall)

/-- If all that stands beside a position is the same, looking the position up gives it. -/
theorem lookup_eq_of_forall {l : List (Nat × β)} {i : Nat} {b : β} (hmem : (i, b) ∈ l)
    (h : ∀ x, (i, x) ∈ l → x = b) : l.lookup i = some b := by
  induction l with
  | nil => cases hmem
  | cons y l ih =>
    obtain ⟨j, x⟩ := y
    rw [List.lookup_cons]
    by_cases hj : i = j
    · subst hj
      simp [h x (List.mem_cons_self ..)]
    · have hb : (i == j) = false := by simpa using hj
      rw [hb]
      refine ih ?_ fun x hx => h x (List.mem_cons_of_mem _ hx)
      rcases List.mem_cons.mp hmem with heq | hmem
      · exact absurd (Prod.mk.inj heq).1 hj
      · exact hmem

/-- Looking up a position and viewing the result can be done in either order. -/
theorem map_lookup (view : β → γ) (l : List (Nat × β)) (i : Nat) :
    (l.lookup i).map view = (l.map fun x => (x.1, view x.2)).lookup i := by
  induction l with
  | nil => rfl
  | cons y l ih =>
    rw [List.map_cons, List.lookup_cons, List.lookup_cons]
    cases i == y.1 <;> simp [ih]

/-! ### A pass in any order -/

/-- A pass in another order is a pass over the items at the positions, whose results are looked up
by position. -/
theorem mapCarryIn_eq (order : List Nat) (f : σ → α → β × σ) (s : σ) (items : List α) :
    mapCarryIn order f s items =
      let pass := mapCarry (fun s (x : Nat × α) => ((x.1, (f s x.2).1), (f s x.2).2)) s
        (itemsAt order items)
      ((List.range items.length).filterMap fun i => pass.1.lookup i, pass.2) := rfl

/-- A step that says that its item is done, and whose result, as far as it is viewed, depends on
the item only: a pass in any order has the results of the items, and all of them are done. -/
theorem mapCarryIn_spec {I : List α → σ → Prop} {items : List α} {order : List Nat}
    (horder : order.Perm (List.range items.length)) (view : β → γ) (g : α → γ)
    (step : ∀ done a rest s, (done ++ a :: rest).Perm items → I done s →
      view (f s a).1 = g a ∧ I (done ++ [a]) (f s a).2)
    {s : σ} (h : I [] s) :
    (mapCarryIn order f s items).1.map view = items.map g ∧
      ∃ done, done.Perm items ∧ I done (mapCarryIn order f s items).2 := by
  have hstep : ∀ (done : List (Nat × α)) a rest s, done ++ a :: rest = itemsAt order items →
      I (done.map Prod.snd) s →
      (a.1, view (f s a.2).1) = (a.1, g a.2) ∧ I ((done ++ [a]).map Prod.snd) (f s a.2).2 := by
    intro done a rest s hitems hI
    have hperm : (done.map Prod.snd ++ a.2 :: rest.map Prod.snd).Perm items := by
      have := itemsAt_perm horder
      rwa [← hitems, List.map_append, List.map_cons] at this
    obtain ⟨hresult, hI⟩ := step _ _ _ s hperm hI
    exact ⟨by rw [hresult], by simpa using hI⟩
  have hnil : [] ++ itemsAt order items = itemsAt order items := rfl
  obtain ⟨hpass, hdone⟩ := mapCarry_spec_of_append
    (f := fun s (x : Nat × α) => ((x.1, (f s x.2).1), (f s x.2).2))
    (I := fun done s => I (done.map Prod.snd) s)
    (fun x => (x.1, view x.2)) (fun x => (x.1, g x.2)) hstep hnil h
  rw [mapCarryIn_eq]
  refine ⟨?_, _, itemsAt_perm horder, hdone⟩
  rw [List.map_filterMap, ← filterMap_getElem?_range items g]
  refine List.filterMap_congr fun i hi => ?_
  have hlt : i < items.length := List.mem_range.mp hi
  have hget : items[i]? = some items[i] := List.getElem?_eq_getElem hlt
  rw [hget, Option.map_some, map_lookup, hpass]
  refine lookup_eq_of_forall ?_ fun c hc => ?_
  · exact List.mem_map.mpr ⟨_, mem_itemsAt.mpr ⟨horder.mem_iff.mpr hi, hget⟩, rfl⟩
  · obtain ⟨⟨j, a⟩, ha, heq⟩ := List.mem_map.mp hc
    obtain ⟨rfl, rfl⟩ := Prod.mk.inj heq
    have := (mem_itemsAt.mp ha).2
    rw [hget, Option.some_inj] at this
    rw [this]

/-- What every step preserves is preserved by a pass, whatever it leaves out. -/
theorem mapCarryIn_preserves {I : σ → Prop} {items : List α}
    (step : ∀ a ∈ items, ∀ s, I s → I (f s a).2) (order : List Nat) {s : σ} (h : I s) :
    I (mapCarryIn order f s items).2 := by
  rw [mapCarryIn_eq]
  refine mapCarry_preserves (fun x hx s hI => step x.2 ?_ s hI) h
  exact List.mem_of_getElem? (mem_itemsAt.mp hx).2

/-- The items in the order in which they are worked on. -/
def workedOn (order : List Nat) (items : List α) : List α := (itemsAt order items).map Prod.snd

/-- Carrying positions along does not change a pass. -/
theorem mapCarry_positions (f : σ → α → β × σ) (s : σ) (xs : List (Nat × α)) :
    let pass := mapCarry (fun s (x : Nat × α) => ((x.1, (f s x.2).1), (f s x.2).2)) s xs
    pass.1.map Prod.fst = xs.map Prod.fst ∧
      pass.1.map Prod.snd = (mapCarry f s (xs.map Prod.snd)).1 ∧
      pass.2 = (mapCarry f s (xs.map Prod.snd)).2 := by
  induction xs generalizing s with
  | nil => exact ⟨rfl, rfl, rfl⟩
  | cons x xs ih =>
    obtain ⟨hfst, hsnd, hstate⟩ := ih (f s x.2).2
    exact ⟨congrArg (x.1 :: ·) hfst, congrArg ((f s x.2).1 :: ·) hsnd, hstate⟩

/-- The state after a pass in another order is that after the items in that order. -/
theorem snd_mapCarryIn (order : List Nat) (f : σ → α → β × σ) (s : σ) (items : List α) :
    (mapCarryIn order f s items).2 = (mapCarry f s (workedOn order items)).2 :=
  (mapCarry_positions f s (itemsAt order items)).2.2

/-- Looking up all positions of a list gives its values in the order of their positions. -/
theorem filterMap_lookup_perm {l : List (Nat × β)} {n : Nat}
    (h : (l.map Prod.fst).Perm (List.range n)) :
    ((List.range n).filterMap fun i => l.lookup i).Perm (l.map Prod.snd) := by
  have hnodup : (l.map Prod.fst).Nodup := h.nodup_iff.mpr List.nodup_range
  have hself : (l.map Prod.fst).filterMap (fun i => l.lookup i) = l.map Prod.snd := by
    rw [List.filterMap_map, ← List.filterMap_eq_map]
    refine List.filterMap_congr fun x hx => lookup_eq_of_forall (b := x.2) hx fun y hy => ?_
    exact (Prod.mk.inj (List.inj_on_of_nodup_map hnodup hy hx rfl)).2
  exact (h.symm.filterMap _).trans (.of_eq hself)

/-- The positions at which items are worked on are all positions, in whatever order. -/
theorem map_fst_itemsAt_perm {order : List Nat} {items : List α}
    (h : order.Perm (List.range items.length)) :
    ((itemsAt order items).map Prod.fst).Perm (List.range items.length) := by
  have hall : (itemsAt order items).map Prod.fst = order := by
    rw [itemsAt, List.map_filterMap]
    conv_rhs => rw [← List.filterMap_some (l := order)]
    refine List.filterMap_congr fun i hi => ?_
    have hlt : i < items.length := List.mem_range.mp (h.mem_iff.mp hi)
    rw [List.getElem?_eq_getElem hlt]
    rfl
  rwa [hall]

/-- The results of a pass in any order are those of the pass that works in this order from the
start, but for their own order. -/
theorem fst_mapCarryIn_perm {order : List Nat} {items : List α}
    (horder : order.Perm (List.range items.length)) (f : σ → α → β × σ) (s : σ) :
    (mapCarryIn order f s items).1.Perm (mapCarry f s (workedOn order items)).1 := by
  obtain ⟨hfst, hsnd, -⟩ := mapCarry_positions f s (itemsAt order items)
  have hperm := filterMap_lookup_perm (hfst ▸ map_fst_itemsAt_perm horder)
  rw [hsnd] at hperm
  exact hperm

/-- What every result of a step is, all results of the pass are. -/
theorem forall_mapCarry {P : β → Prop} (step : ∀ s a, P (f s a).1) (s : σ) (items : List α) :
    ∀ x ∈ (mapCarry f s items).1, P x := by
  induction items generalizing s with
  | nil => exact fun x hx => absurd hx List.not_mem_nil
  | cons a items ih =>
    intro x hx
    rcases List.mem_cons.mp hx with rfl | hx
    · exact step s a
    · exact ih _ x hx

/-- What every result of a step is, all results of a pass are. -/
theorem forall_mapCarryIn {P : β → Prop} (step : ∀ s a, P (f s a).1) (order : List Nat) (s : σ)
    (items : List α) : ∀ x ∈ (mapCarryIn order f s items).1, P x := by
  intro x hx
  rw [mapCarryIn_eq] at hx
  obtain ⟨i, -, hi⟩ := List.mem_filterMap.mp hx
  obtain ⟨front, back, hsplit, -⟩ := List.lookup_eq_some_iff.mp hi
  have hall := forall_mapCarry (f := fun s (x : Nat × α) => ((x.1, (f s x.2).1), (f s x.2).2))
    (P := fun y => P y.2) (fun s y => step s y.2) s (itemsAt order items)
  exact hall (i, x) (by simp [hsplit])

/-- A schedule by which all units and all functions of each are worked on, once each. -/
structure Schedule.IsComplete (schedule : Schedule) : Prop where
  units : ∀ n, (schedule.units n).Perm (List.range n)
  functions : ∀ summary n, (schedule.functions summary n).Perm (List.range n)

/-- Working in the order in which things are found leaves nothing out. -/
theorem Schedule.isComplete_inOrder : Schedule.inOrder.IsComplete :=
  ⟨fun _ => .rfl, fun _ _ => .rfl⟩

end InstrGraph

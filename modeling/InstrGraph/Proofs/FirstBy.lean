import Mathlib.Data.List.Induction
import Mathlib.Data.List.Nodup
import Mathlib.Order.Nat

/-!
# The first of several

`firstBy f` keeps of the items that agree in `f` the one that comes first. One more item at the end
is kept if no earlier one agrees with it (`firstBy_concat`), so a loop that collects items unless it
has seen them before collects the first ones. Where only equal items agree this is what removing
repetitions does (`eraseDups_eq_firstBy`).
-/

namespace InstrGraph

variable {α β : Type} [DecidableEq β]

/-- The items of a list without those that agree with an earlier one in `f`. -/
def firstBy (f : α → β) (xs : List α) : List α :=
  (xs.zipIdx.filter fun p => f p.1 ∉ (xs.take p.2).map f).map Prod.fst

/-- An empty list has no first items. -/
@[simp] theorem firstBy_nil (f : α → β) : firstBy f [] = [] := rfl

/-- One more item is a first one if there is none with its key before it. -/
theorem firstBy_concat (f : α → β) (xs : List α) (x : α) :
    firstBy f (xs ++ [x]) =
      if f x ∈ xs.map f then firstBy f xs else firstBy f xs ++ [x] := by
  have hfront : (xs.zipIdx.filter fun p => f p.1 ∉ ((xs ++ [x]).take p.2).map f) =
      xs.zipIdx.filter fun p => f p.1 ∉ (xs.take p.2).map f := by
    refine List.filter_congr fun p hp => ?_
    have hlt : p.2 < xs.length := by
      have := List.snd_lt_of_mem_zipIdx hp
      omega
    rw [List.take_append_of_le_length hlt.le]
  rw [firstBy, List.zipIdx_append, List.filter_append, hfront, List.map_append, ← firstBy]
  by_cases hx : f x ∈ xs.map f
  · simp [hx]
  · simp [hx]

/-- The values that are left are those of the list, each once. -/
theorem mem_map_firstBy {f : α → β} {xs : List α} {y : β} :
    y ∈ (firstBy f xs).map f ↔ y ∈ xs.map f := by
  induction xs using List.reverseRecOn with
  | nil => simp
  | append_singleton xs x ih =>
    rw [firstBy_concat, List.map_append, List.mem_append, ← ih]
    by_cases hx : f x ∈ xs.map f
    · rw [if_pos hx]
      refine (or_iff_left_of_imp fun hy => ?_).symm
      rw [List.map_singleton, List.mem_singleton] at hy
      exact ih.mpr (hy ▸ hx)
    · rw [if_neg hx, List.map_append, List.mem_append]

/-- Only items of the list are kept. -/
theorem mem_of_mem_firstBy {f : α → β} {xs : List α} {x : α} (h : x ∈ firstBy f xs) : x ∈ xs := by
  obtain ⟨p, hp, rfl⟩ := List.mem_map.mp h
  exact List.fst_mem_of_mem_zipIdx (List.mem_of_mem_filter hp)

/-- The first items by themselves are the items. -/
theorem mem_firstBy_id [DecidableEq α] {xs : List α} {x : α} : x ∈ firstBy id xs ↔ x ∈ xs := by
  have h : x ∈ (firstBy id xs).map id ↔ x ∈ xs.map id := mem_map_firstBy
  rwa [List.map_id, List.map_id] at h

/-- Removing repetitions from the left keeps the first of several equal items. -/
theorem eraseDups_eq_firstBy [DecidableEq α] (xs : List α) : xs.eraseDups = firstBy id xs := by
  induction xs using List.reverseRecOn with
  | nil => rfl
  | append_singleton xs x ih =>
    rw [firstBy_concat, List.eraseDups_append, ih, List.map_id, id]
    by_cases hx : x ∈ xs
    · simp [List.removeAll, hx]
    · simp [List.removeAll, hx, List.eraseDups_cons]

/-- One more item is kept if it has not been there before. -/
theorem eraseDups_concat [DecidableEq α] (xs : List α) (x : α) :
    (xs ++ [x]).eraseDups = if x ∈ xs then xs.eraseDups else xs.eraseDups ++ [x] := by
  rw [eraseDups_eq_firstBy, firstBy_concat, List.map_id, ← eraseDups_eq_firstBy]
  rfl

/-- Dropping what occurs again twice does no more than doing so once. -/
theorem eraseDups_eraseDups [DecidableEq α] (xs : List α) :
    xs.eraseDups.eraseDups = xs.eraseDups := by
  induction xs using List.reverseRecOn with
  | nil => rfl
  | append_singleton xs x ih =>
    rw [eraseDups_concat]
    by_cases hx : x ∈ xs
    · rw [if_pos hx, ih]
    · rw [if_neg hx, eraseDups_concat, if_neg (mt List.mem_eraseDups.mp hx), ih]

/-- Items that stay different have the same repetitions. -/
theorem eraseDups_map [DecidableEq α] {f : α → β} {xs : List α}
    (h : ∀ x ∈ xs, ∀ y ∈ xs, f x = f y → x = y) : (xs.map f).eraseDups = xs.eraseDups.map f := by
  induction xs using List.reverseRecOn with
  | nil => rfl
  | append_singleton xs x ih =>
    have hrest := ih fun y hy z hz => h y (List.mem_append_left _ hy) z (List.mem_append_left _ hz)
    have hmem : f x ∈ xs.map f ↔ x ∈ xs := by
      constructor
      · intro hfx
        obtain ⟨y, hy, heq⟩ := List.mem_map.mp hfx
        exact h y (List.mem_append_left _ hy) x (by simp) heq ▸ hy
      · exact List.mem_map_of_mem
    rw [List.map_append, List.map_singleton, eraseDups_concat, eraseDups_concat, hrest]
    by_cases hx : x ∈ xs
    · rw [if_pos (hmem.mpr hx), if_pos hx]
    · rw [if_neg (mt hmem.mp hx), if_neg hx, List.map_append, List.map_singleton]

/-! ### Removing repetitions -/

/-- Nothing occurs twice with one more item if nothing did and the item is new. -/
theorem nodup_append_singleton {xs : List α} {x : α} :
    (xs ++ [x]).Nodup ↔ x ∉ xs ∧ xs.Nodup := by
  rw [← List.concat_eq_append, List.nodup_concat]

section

variable [DecidableEq α] {xs : List α} {x : α}

/-- Dropping what occurs again makes a list no longer. -/
theorem length_eraseDups_le (xs : List α) : xs.eraseDups.length ≤ xs.length := by
  induction xs using List.reverseRecOn with
  | nil => exact le_rfl
  | append_singleton xs x ih =>
    rw [eraseDups_concat]
    split <;> simp only [List.length_append, List.length_singleton] <;> omega

/-- Nothing is removed exactly if there are no repetitions. -/
theorem length_eraseDups_eq_iff : xs.eraseDups.length = xs.length ↔ xs.Nodup := by
  induction xs using List.reverseRecOn with
  | nil => simp
  | append_singleton xs x ih =>
    have hle := length_eraseDups_le xs
    rw [eraseDups_concat, nodup_append_singleton, ← ih]
    by_cases hx : x ∈ xs
    · rw [if_pos hx, List.length_append, List.length_singleton]
      exact ⟨fun h => by omega, fun h => absurd hx h.1⟩
    · rw [if_neg hx, List.length_append, List.length_append, List.length_singleton]
      exact ⟨fun h => ⟨hx, by omega⟩, fun h => by omega⟩

/-- When repetitions are removed, an item comes behind the different ones that stand before it. -/
theorem idxOf_eraseDups (h : x ∈ xs) :
    xs.eraseDups.idxOf x = (xs.take (xs.idxOf x)).eraseDups.length := by
  induction xs using List.reverseRecOn with
  | nil => cases h
  | append_singleton xs y ih =>
    by_cases hx : x ∈ xs
    · have hlt := List.idxOf_lt_length_of_mem hx
      rw [List.idxOf_append_of_mem hx, List.take_append_of_le_length hlt.le, ← ih hx,
        eraseDups_concat]
      split
      · rfl
      · exact List.idxOf_append_of_mem (List.mem_eraseDups.mpr hx)
    · obtain rfl : x = y := by
        rcases List.mem_append.mp h with h | h
        · exact absurd h hx
        · exact List.mem_singleton.mp h
      have hx' : x ∉ xs.eraseDups := fun h => hx (List.mem_eraseDups.mp h)
      rw [eraseDups_concat, if_neg hx, List.idxOf_append_of_notMem hx,
        List.idxOf_append_of_notMem hx', List.idxOf_cons_self, Nat.add_zero, Nat.add_zero,
        List.take_left]

/-- An item stands in its place if nothing occurs twice up to it. -/
theorem idxOf_eraseDups_append_cons (before after : List α) (x : α) :
    (before ++ x :: after).eraseDups.idxOf x = before.length ↔ (before ++ [x]).Nodup := by
  rw [idxOf_eraseDups (by simp), nodup_append_singleton]
  by_cases hx : x ∈ before
  · have hlt := List.idxOf_lt_length_of_mem hx
    have hle := length_eraseDups_le (before.take (before.idxOf x))
    rw [List.length_take] at hle
    rw [List.idxOf_append_of_mem hx, List.take_append_of_le_length hlt.le]
    exact ⟨fun h => by omega, fun h => absurd hx h.1⟩
  · rw [List.idxOf_append_of_notMem hx, List.idxOf_cons_self, Nat.add_zero, List.take_left,
      length_eraseDups_eq_iff]
    exact (and_iff_right hx).symm

/-- An item keeps its place exactly if nothing is repeated up to it. -/
theorem idxOf_eraseDups_eq_iff {i : Nat} (h : xs[i]? = some x) :
    xs.eraseDups.idxOf x = i ↔ (xs.take (i + 1)).Nodup := by
  obtain ⟨hi, rfl⟩ := List.getElem?_eq_some_iff.mp h
  have hiff := idxOf_eraseDups_append_cons (xs.take i) (xs.drop (i + 1)) xs[i]
  rw [← List.drop_eq_getElem_cons hi, List.take_append_drop, List.length_take_of_le hi.le] at hiff
  rw [hiff, List.take_add_one, h]
  rfl

end

end InstrGraph

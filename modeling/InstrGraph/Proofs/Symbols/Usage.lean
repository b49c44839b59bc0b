import InstrGraph.Usage

/-!
# What a usage has

A usage has the mentions that were recorded in it or merged into it (`Usage.has_recordAll`,
`Usage.has_merge`). Merging what it has already changes nothing, neither the mentions nor their
order (`Usage.merge_eq_self`).
-/

namespace InstrGraph

section

variable {xs ys : List String} {x : String}

/-- The names after a push are those before it and those that are pushed. -/
theorem mem_pushAll : x ∈ pushAll xs ys ↔ x ∈ xs ∨ x ∈ ys := by
  unfold pushAll
  induction ys generalizing xs with
  | nil => simp
  | cons y ys ih => rw [List.foldl_cons, ih, mem_pushUnique, List.mem_cons, or_assoc]

/-- Pushing a name that is there changes nothing. -/
theorem pushUnique_eq_self (h : x ∈ xs) : pushUnique xs x = xs :=
  if_pos (List.contains_iff_mem.mpr h)

/-- Pushing names that are there changes nothing. -/
theorem pushAll_eq_self (h : ∀ y ∈ ys, y ∈ xs) : pushAll xs ys = xs := by
  unfold pushAll
  induction ys with
  | nil => rfl
  | cons y ys ih =>
    rw [List.foldl_cons, pushUnique_eq_self (h y List.mem_cons_self)]
    exact ih fun z hz => h z (List.mem_cons_of_mem y hz)

end

namespace Usage

/-- The mention stands in the list of its kind. -/
def Has (u : Usage) : Mention → Prop
  | .global n => n ∈ u.globals
  | .struct n => n ∈ u.structs
  | .call n => n ∈ u.calls
  | .constant v => v ∈ u.constants

variable {u v : Usage} {m m' : Mention} {ms : List Mention}

/-- A usage has what it had and what is recorded. -/
theorem has_record : (u.record m).Has m' ↔ u.Has m' ∨ m' = m := by
  cases m <;> cases m' <;> simp [record, Has, mem_pushUnique]

/-- A usage has what it had and all that is recorded. -/
theorem has_recordAll : (u.recordAll ms).Has m ↔ u.Has m ∨ m ∈ ms := by
  unfold recordAll
  induction ms generalizing u with
  | nil => simp
  | cons m' ms ih => rw [List.foldl_cons, ih, has_record, List.mem_cons, or_assoc]

/-- What is recorded from the beginning is what is there. -/
theorem has_recordAll_empty : (({} : Usage).recordAll ms).Has m ↔ m ∈ ms := by
  rw [has_recordAll]
  cases m <;> simp [Has]

/-- A merged usage has what one of the two has. -/
theorem has_merge : (u.merge v).Has m ↔ u.Has m ∨ v.Has m := by
  cases m <;> exact mem_pushAll

/-- Merging what is there already changes nothing. -/
theorem merge_eq_self (h : ∀ m, v.Has m → u.Has m) : u.merge v = u := by
  have hglobals := pushAll_eq_self fun n hn => h (.global n) hn
  have hstructs := pushAll_eq_self fun n hn => h (.struct n) hn
  have hcalls := pushAll_eq_self fun n hn => h (.call n) hn
  have hconstants := pushAll_eq_self fun n hn => h (.constant n) hn
  rw [merge, hglobals, hstructs, hcalls, hconstants]

/-- Merging some of what has just been merged changes nothing. -/
theorem merge_merge_eq (u : Usage) {ms ms' : List Mention} (h : ∀ m ∈ ms', m ∈ ms) :
    (u.merge (({} : Usage).recordAll ms)).merge (({} : Usage).recordAll ms') =
      u.merge (({} : Usage).recordAll ms) := by
  refine merge_eq_self fun m hm => has_merge.mpr (Or.inr ?_)
  exact has_recordAll_empty.mpr (h m (has_recordAll_empty.mp hm))

end Usage

end InstrGraph

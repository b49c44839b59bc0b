import InstrGraph.ErrorLog
import Mathlib.Data.List.Basic
import Mathlib.Data.List.Perm.Basic
import Mathlib.Data.String.Basic

/-!
# The rows of a log

The rows of a log are in strict order of their keys (`isSorted_updateRows`), so which rows there
are decides their list (`IsSorted.eq_of_mem_iff`). What is recorded under a new key is one more row
(`Lists.recordFailure`, `Lists.recordWarnings`).
-/

namespace InstrGraph

namespace LogKey

variable {a b c : LogKey}

/-- Keys are in the order of their units, and those of one unit in the order of their functions. -/
theorem before_iff :
    a.before b = true ↔ a.unit < b.unit ∨ a.unit = b.unit ∧ a.function < b.function := by
  simp [before]

/-- No key comes before itself. -/
theorem before_irrefl (a : LogKey) : ¬ a.before a = true := by
  simp [before_iff]

/-- A key that comes before another comes before all that come after that. -/
theorem before_trans (hab : a.before b = true) (hbc : b.before c = true) :
    a.before c = true := by
  rw [before_iff] at *
  rcases hab with hab | ⟨hab, hab'⟩ <;> rcases hbc with hbc | ⟨hbc, hbc'⟩
  · exact .inl (hab.trans hbc)
  · exact .inl (hbc ▸ hab)
  · exact .inl (hab ▸ hbc)
  · exact .inr ⟨hab.trans hbc, hab'.trans hbc'⟩

/-- Of two keys one comes before the other. -/
theorem before_of_not_before (hne : a ≠ b) (h : ¬ b.before a = true) : a.before b = true := by
  rw [before_iff] at *
  push Not at h
  rcases lt_trichotomy a.unit b.unit with hu | hu | hu
  · exact .inl hu
  · refine .inr ⟨hu, lt_of_le_of_ne (h.2 hu.symm) fun hf => hne ?_⟩
    cases a
    cases b
    simp_all
  · exact absurd hu (not_lt.mpr h.1)

/-- Two keys do not come before each other. -/
theorem before_asymm (h : a.before b = true) : ¬ b.before a = true := fun h' =>
  before_irrefl a (before_trans h h')

end LogKey

namespace ErrorLog

/-- The rows are in strict order of their keys. -/
def IsSorted (rows : List LogRow) : Prop := rows.Pairwise fun a b => a.key.before b.key = true

variable {key : LogKey} {f : LogEntry → LogEntry} {rows : List LogRow} {r : LogRow}

/-- An update brings no keys but its own. -/
theorem key_of_mem_updateRows (h : r ∈ updateRows key f rows) :
    r.key = key ∨ ∃ r' ∈ rows, r'.key = r.key := by
  induction rows with
  | nil =>
    obtain rfl := List.mem_singleton.mp h
    exact .inl rfl
  | cons x rows ih =>
    rw [updateRows] at h
    split at h
    · rcases List.mem_cons.mp h with rfl | h
      · exact .inl rfl
      · exact .inr ⟨r, List.mem_cons_of_mem _ h, rfl⟩
    · split at h
      · rcases List.mem_cons.mp h with rfl | h
        · exact .inl rfl
        · exact .inr ⟨r, h, rfl⟩
      · rcases List.mem_cons.mp h with rfl | h
        · exact .inr ⟨r, List.mem_cons_self .., rfl⟩
        · rcases ih h with hk | ⟨r', hr', hk⟩
          · exact .inl hk
          · exact .inr ⟨r', List.mem_cons_of_mem _ hr', hk⟩

/-- Rows in strict order stay so in an update. -/
theorem isSorted_updateRows (h : IsSorted rows) : IsSorted (updateRows key f rows) := by
  induction rows with
  | nil => exact List.pairwise_singleton ..
  | cons x rows ih =>
    obtain ⟨hx, hrows⟩ := List.pairwise_cons.mp h
    rw [updateRows]
    split
    · rename_i hk
      exact List.pairwise_cons.mpr ⟨fun y hy => hk ▸ hx y hy, hrows⟩
    · rename_i hk
      split
      · rename_i hb
        refine List.pairwise_cons.mpr ⟨fun y hy => ?_, h⟩
        rcases List.mem_cons.mp hy with rfl | hy
        · exact hb
        · exact LogKey.before_trans hb (hx y hy)
      · rename_i hb
        refine List.pairwise_cons.mpr ⟨fun y hy => ?_, ih hrows⟩
        rcases key_of_mem_updateRows hy with hkey | ⟨y', hy', hkey⟩
        · exact hkey ▸ LogKey.before_of_not_before hk hb
        · exact hkey ▸ hx y' hy'

/-- Under a new key there is one more row. -/
theorem mem_updateRows_of_new (hnew : ∀ x ∈ rows, x.key ≠ key) :
    r ∈ updateRows key f rows ↔ r = ⟨key, f {}⟩ ∨ r ∈ rows := by
  induction rows with
  | nil => simp [updateRows]
  | cons x rows ih =>
    have hx : x.key ≠ key := hnew x (List.mem_cons_self ..)
    rw [updateRows, if_neg hx]
    split
    · exact List.mem_cons
    · rw [List.mem_cons, ih fun y hy => hnew y (List.mem_cons_of_mem _ hy), List.mem_cons]
      tauto

/-- No row occurs twice in strict order. -/
theorem IsSorted.nodup (h : IsSorted rows) : rows.Nodup := by
  refine List.Pairwise.imp (fun {a b} hb heq => ?_) h
  exact LogKey.before_irrefl b.key (heq ▸ hb)

/-- What the rows say under a key. -/
def entryAt (rows : List LogRow) (key : LogKey) : LogEntry :=
  match rows.find? fun r => r.key = key with
  | some r => r.entry
  | none => {}

/-- The entry of a key is the one of its first row. -/
theorem entryAt_cons (r : LogRow) (rows : List LogRow) (key : LogKey) :
    entryAt (r :: rows) key = if r.key = key then r.entry else entryAt rows key := by
  rw [entryAt, List.find?_cons]
  by_cases h : r.key = key
  · simp [h]
  · simp [h, entryAt]

/-- Without rows of a key its entry is empty. -/
theorem entryAt_of_forall_ne (h : ∀ r ∈ rows, r.key ≠ key) : entryAt rows key = {} := by
  have hnone : (rows.find? fun r => r.key = key) = none := by simpa using h
  rw [entryAt, hnone]

/-- An update is seen under its key only. -/
theorem entryAt_updateRows (h : IsSorted rows) (key' : LogKey) :
    entryAt (updateRows key f rows) key' =
      if key' = key then f (entryAt rows key) else entryAt rows key' := by
  induction rows with
  | nil =>
    rw [updateRows, entryAt_cons]
    by_cases hk : key' = key
    · simp [hk, entryAt]
    · simp [hk, Ne.symm hk]
  | cons x rows ih =>
    obtain ⟨hx, hrows⟩ := List.pairwise_cons.mp h
    rw [updateRows]
    split
    · rename_i hxkey
      rw [entryAt_cons, entryAt_cons, entryAt_cons, hxkey]
      by_cases hk : key' = key
      · simp [hk]
      · simp [hk, Ne.symm hk]
    · rename_i hxkey
      split
      · rename_i hbefore
        have hnone : entryAt (x :: rows) key = {} := by
          refine entryAt_of_forall_ne fun r hr heq => ?_
          rcases List.mem_cons.mp hr with rfl | hr
          · exact hxkey heq
          · exact LogKey.before_asymm hbefore (heq ▸ hx r hr)
        rw [entryAt_cons, hnone]
        by_cases hk : key' = key
        · simp [hk]
        · simp [hk, Ne.symm hk]
      · rw [entryAt_cons, entryAt_cons, ih hrows, entryAt_cons, if_neg hxkey]
        by_cases hk : key' = key
        · simp [hk, hxkey]
        · simp [hk]

/-- In strict order, the entry of a row is found under its key. -/
theorem IsSorted.entryAt_key (h : IsSorted rows) (hr : r ∈ rows) :
    entryAt rows r.key = r.entry := by
  induction rows with
  | nil => cases hr
  | cons x rows ih =>
    obtain ⟨hx, hrows⟩ := List.pairwise_cons.mp h
    rw [entryAt_cons]
    rcases List.mem_cons.mp hr with rfl | hr
    · rw [if_pos rfl]
    · have hne : x.key ≠ r.key := fun heq =>
        LogKey.before_irrefl r.key (heq ▸ hx r hr)
      rw [if_neg hne, ih hrows hr]

/-- A failure that is found under a key is in a row of this key. -/
theorem exists_mem_of_entryAt_error {failure : Failure}
    (h : (entryAt rows key).error = some failure) :
    ∃ r ∈ rows, r.key = key ∧ r.entry.error = some failure := by
  rw [entryAt] at h
  split at h
  · rename_i r hfind
    exact ⟨r, List.mem_of_find?_eq_some hfind, by simpa using List.find?_some hfind, h⟩
  · cases h

/-- No key occurs twice in strict order. -/
theorem IsSorted.nodup_keys (h : IsSorted rows) : (rows.map LogRow.key).Nodup := by
  refine List.pairwise_map.mpr (h.imp fun {a b} hb heq => ?_)
  exact LogKey.before_irrefl b.key (heq ▸ hb)

/-- Which rows there are decides their list. -/
theorem IsSorted.eq_of_mem_iff {rows' : List LogRow} (h : IsSorted rows) (h' : IsSorted rows')
    (hmem : ∀ r, r ∈ rows ↔ r ∈ rows') : rows = rows' := by
  have hperm : rows.Perm rows' := (List.perm_ext_iff_of_nodup h.nodup h'.nodup).mpr hmem
  exact hperm.eq_of_pairwise (fun a b _ _ hab hba => absurd hba (LogKey.before_asymm hab)) h h'

/-- The rows with a failure. -/
def failures (l : ErrorLog) : List LogRow := l.rows.filter fun r => r.entry.error.isSome

/-- These are the rows of the log, in whatever order they are given. -/
structure Lists (l : ErrorLog) (rows : List LogRow) : Prop where
  sorted : IsSorted l.rows
  mem_iff : ∀ r, r ∈ l.rows ↔ r ∈ rows

namespace Lists

variable {l l' : ErrorLog} (h : l.Lists rows)

/-- The empty log has no rows. -/
theorem empty : ({} : ErrorLog).Lists [] := ⟨.nil, fun _ => .rfl⟩

include h

/-- It does not matter in which order the rows are given. -/
theorem congr {rows' : List LogRow} (hmem : ∀ r, r ∈ rows ↔ r ∈ rows') : l.Lists rows' :=
  ⟨h.sorted, fun r => (h.mem_iff r).trans (hmem r)⟩

/-- The rows of a log are those that are given, in another order. -/
theorem perm (hrows : rows.Nodup) : l.rows.Perm rows :=
  (List.perm_ext_iff_of_nodup h.sorted.nodup hrows).mpr h.mem_iff

/-- Which rows with a failure there are decides their list. -/
theorem failures_eq {rows' : List LogRow} (h' : l'.Lists rows')
    (hmem : ∀ r : LogRow, r.entry.error.isSome → (r ∈ rows ↔ r ∈ rows')) :
    l.failures = l'.failures := by
  refine IsSorted.eq_of_mem_iff (h.sorted.filter _) (h'.sorted.filter _) fun r => ?_
  rw [failures, failures, List.mem_filter, List.mem_filter, h.mem_iff, h'.mem_iff]
  exact and_congr_left (hmem r)

/-- A failure under a new key is one more row. -/
theorem recordFailure (hnew : ∀ x ∈ rows, x.key ≠ key) (e : Error) :
    (l.recordFailure key e).Lists (rows ++ [⟨key, { error := some (.ofError e) }⟩]) := by
  refine ⟨isSorted_updateRows h.sorted, fun r => ?_⟩
  rw [ErrorLog.recordFailure,
    mem_updateRows_of_new fun x hx => hnew x ((h.mem_iff x).mp hx), h.mem_iff]
  simp [or_comm]

/-- Warnings under a new key are one more row. -/
theorem recordWarnings (hnew : ∀ x ∈ rows, x.key ≠ key) {ds : List Diagnostic} (hds : ds ≠ []) :
    (l.recordWarnings key ds).Lists (rows ++ [⟨key, { warnings := ds.map Diagnostic.line }⟩]) := by
  rw [ErrorLog.recordWarnings, if_neg (by simpa using hds)]
  refine ⟨isSorted_updateRows h.sorted, fun r => ?_⟩
  rw [mem_updateRows_of_new fun x hx => hnew x ((h.mem_iff x).mp hx), h.mem_iff]
  simp [or_comm]

end Lists

end ErrorLog

end InstrGraph

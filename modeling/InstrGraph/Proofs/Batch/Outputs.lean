import InstrGraph.Proofs.Batch.Orderly
import Mathlib.Algebra.BigOperators.Group.List.Basic
import Mathlib.Data.List.Nodup
import Mathlib.Tactic.Ring

/-!
# What an orderly run leaves behind

The three things that a run fills, output by output:

* the output directory (`Leaves.exists_directory`): every name of a graph or of canonical functions
  has the text that belongs to it, or what was there before;
* the log (`Orderly.nodup_rowsAt`): the rows that it gets are different;
* the report (`count_report`): every number in it adds up over units and functions.
-/

namespace InstrGraph

open FileTree (Contents HasDirectory IsUsable SameOutside temporaryName)
open InstrGraph.Path (IsName join)

namespace Batch

variable {b : Batch} {t : FileTree} {p : Place} {found : List String}
  {old : String → Option String} {kept : String → Bool}

/-! ### One name, one output -/

/-- The names of a run are those of its graphs and those of its canonical functions. -/
theorem namesAt_perm (b : Batch) (t : FileTree) (found : List String) :
    (b.namesAt t found).Perm
      ((b.tasksAt t found).map b.graphOf ++ (b.unitsAt t found).flatMap b.canonicalOf) := by
  rw [tasksAt, List.map_flatMap]
  exact (List.flatMap_append_perm ..).symm

/-- What a run writes are the graphs of its functions and the canonical functions of its units. -/
theorem mem_writesAt {x : String × String} : x ∈ (b.unitsAt t found).flatMap (b.writes kept) ↔
    (∃ task ∈ b.tasksAt t found, x ∈ b.graphs kept task) ∨
      ∃ u ∈ b.unitsAt t found, x ∈ b.canonicals kept u := by
  simp only [writes, tasksAt, List.mem_flatMap, List.mem_append]
  constructor
  · rintro ⟨u, hu, ⟨task, htask, hx⟩ | hx⟩
    · exact .inl ⟨task, ⟨u, hu, htask⟩, hx⟩
    · exact .inr ⟨u, hu, hx⟩
  · rintro (⟨task, ⟨u, hu, htask⟩, hx⟩ | ⟨u, hu, hx⟩)
    · exact ⟨u, hu, .inl ⟨task, htask, hx⟩⟩
    · exact ⟨u, hu, .inr hx⟩

/-- The graph of every function has a name among those of the run. -/
theorem graphOf_mem_namesAt {task : Task} (h : task ∈ b.tasksAt t found) :
    b.graphOf task ∈ b.namesAt t found :=
  (b.namesAt_perm t found).mem_iff.mpr (List.mem_append_left _ (List.mem_map_of_mem h))

/-- Canonical functions have the name of their unit, if they are written. -/
theorem mem_canonicalOf {u : LoadedUnit} {n : String} :
    n ∈ b.canonicalOf u ↔ b.config.files.writeCanonical = true ∧ n = canonicalName u.stem := by
  rw [canonicalOf]
  split <;> simp_all

/-- The canonical functions of every unit have a name among those of the run, if they are
written. -/
theorem canonicalName_mem_namesAt (hwrite : b.config.files.writeCanonical = true)
    {u : LoadedUnit} (h : u ∈ b.unitsAt t found) : canonicalName u.stem ∈ b.namesAt t found :=
  (b.namesAt_perm t found).mem_iff.mpr
    (List.mem_append_right _ (List.mem_flatMap.mpr ⟨u, h, mem_canonicalOf.mpr ⟨hwrite, rfl⟩⟩))

/-- Canonical functions are written under the name of their unit, if they are written. -/
theorem name_of_mem_canonicals {u : LoadedUnit} {x : String × String}
    (h : x ∈ b.canonicals kept u) :
    b.config.files.writeCanonical = true ∧ x.1 = canonicalName u.stem := by
  rw [canonicals] at h
  split at h
  · rename_i hwants
    obtain rfl := List.mem_singleton.mp h
    simp only [wants, Bool.and_eq_true] at hwants
    exact ⟨hwants.1.1, rfl⟩
  · cases h

namespace Orderly

variable (h : b.Orderly t p found)

include h

/-- No two graphs and canonical functions of an orderly run have one name. -/
theorem nodup_names : ((b.tasksAt t found).map b.graphOf ++
    (b.unitsAt t found).flatMap b.canonicalOf).Nodup :=
  (b.namesAt_perm t found).nodup_iff.mp h.names

/-- In an orderly run, functions whose graphs have one name are the same. -/
theorem eq_of_graphOf_eq {task task' : Task} (htask : task ∈ b.tasksAt t found)
    (htask' : task' ∈ b.tasksAt t found) (heq : b.graphOf task = b.graphOf task') :
    task = task' :=
  List.inj_on_of_nodup_map (List.nodup_append.mp h.nodup_names).1 htask htask' heq

/-- In an orderly run, units of one stem are the same. -/
theorem eq_of_stem_eq {u u' : LoadedUnit} (hu : u ∈ b.unitsAt t found)
    (hu' : u' ∈ b.unitsAt t found) (heq : u.stem = u'.stem) : u = u' :=
  List.inj_on_of_nodup_map h.stems hu hu' heq

/-- In an orderly run, no graph has the name of canonical functions. -/
theorem graphOf_ne {task : Task} (htask : task ∈ b.tasksAt t found) {u : LoadedUnit}
    (hu : u ∈ b.unitsAt t found) (hwrite : b.config.files.writeCanonical = true) :
    b.graphOf task ≠ canonicalName u.stem := fun heq =>
  (List.nodup_append.mp h.nodup_names).2.2 _ (List.mem_map_of_mem htask) _
    (List.mem_flatMap.mpr ⟨u, hu, mem_canonicalOf.mpr ⟨hwrite, rfl⟩⟩) heq

/-- What is written under the name of a graph is that graph. -/
theorem graph_mem_writesAt {task : Task} (htask : task ∈ b.tasksAt t found) {text : String} :
    (b.graphOf task, text) ∈ (b.unitsAt t found).flatMap (b.writes kept) ↔
      (b.graphOf task, text) ∈ b.graphs kept task := by
  rw [mem_writesAt]
  constructor
  · rintro (⟨task', htask', hx⟩ | ⟨u, hu, hx⟩)
    · obtain rfl := h.eq_of_graphOf_eq htask htask' (fst_of_mem_graphs hx)
      exact hx
    · obtain ⟨hwrite, heq⟩ := name_of_mem_canonicals hx
      exact absurd heq (h.graphOf_ne htask hu hwrite)
  · exact fun hx => .inl ⟨task, htask, hx⟩

/-- What is written under the name of canonical functions are those. -/
theorem canonical_mem_writesAt (hwrite : b.config.files.writeCanonical = true) {u : LoadedUnit}
    (hu : u ∈ b.unitsAt t found) {text : String} :
    (canonicalName u.stem, text) ∈ (b.unitsAt t found).flatMap (b.writes kept) ↔
      (canonicalName u.stem, text) ∈ b.canonicals kept u := by
  rw [mem_writesAt]
  constructor
  · rintro (⟨task, htask, hx⟩ | ⟨u', hu', hx⟩)
    · exact absurd (fst_of_mem_graphs hx).symm (h.graphOf_ne htask hu hwrite)
    · obtain ⟨-, heq⟩ := name_of_mem_canonicals hx
      have hlist : u.stem.toList ++ "_canonical.json".toList =
          u'.stem.toList ++ "_canonical.json".toList := by
        simpa [canonicalName] using congrArg String.toList heq
      obtain rfl := h.eq_of_stem_eq hu hu' (String.toList_inj.mp (List.append_cancel_right hlist))
      exact hx
  · exact fun hx => .inr ⟨u, hu, hx⟩

end Orderly

/-! ### The output directory -/

/-- What is under the name of a graph after a run. -/
def graphAfter (b : Batch) (old : String → Option String) (task : Task) : Option String :=
  if b.keeps old (b.graphOf task) then old (b.graphOf task)
  else
    match b.result task with
    | .ok output => some (b.textOf output.document.toJson)
    | .error _ => old (b.graphOf task)

/-- What is under the name of canonical functions after a run. -/
def canonicalAfter (b : Batch) (old : String → Option String) (u : LoadedUnit) : Option String :=
  if b.keeps old (canonicalName u.stem) || (b.canonicalForms u).isEmpty then
    old (canonicalName u.stem)
  else some (b.canonicalText u)

/-- The files in the output directory after a run, name by name. -/
structure Directory (b : Batch) (t : FileTree) (found : List String) (log : ErrorLog)
    (old now : String → Option String) : Prop where
  graph : ∀ task ∈ b.tasksAt t found, now (b.graphOf task) = b.graphAfter old task
  canonical : b.config.files.writeCanonical = true →
    ∀ u ∈ b.unitsAt t found, now (canonicalName u.stem) = b.canonicalAfter old u
  log : now logName = some log.toJson.pretty
  other : ∀ n ∉ logName :: b.namesAt t found, now n = old n ∨
    now n = none ∧ b.IsTemporary t found n

/-- What the directory holds after a run depends on the units only. -/
theorem Directory.of_unitsAt_eq {t' : FileTree} {log : ErrorLog} {now : String → Option String}
    (h : b.Directory t' found log old now) (hunits : b.unitsAt t' found = b.unitsAt t found) :
    b.Directory t found log old now := by
  have htasks : b.tasksAt t' found = b.tasksAt t found := by rw [tasksAt, tasksAt, hunits]
  have hnames : b.namesAt t' found = b.namesAt t found := by rw [namesAt, namesAt, hunits]
  have htemporary : b.IsTemporary t' found = b.IsTemporary t found := by
    funext n
    rw [IsTemporary, IsTemporary, hnames]
  exact ⟨htasks ▸ h.graph, hunits ▸ h.canonical, h.log, hnames ▸ htemporary ▸ h.other⟩

/-- Where nothing is written, a name keeps its file. -/
theorem Orderly.kept_of_unwritten (h : b.Orderly t p found) {text : String}
    {now : String → Option String}
    (hover : Overlay (b.IsTemporary t found)
      ((b.unitsAt t found).flatMap (b.writes kept) ++ [(logName, text)]) old now)
    {n : String} (hn : n ∈ b.namesAt t found)
    (hno : ∀ x, (n, x) ∉ (b.unitsAt t found).flatMap (b.writes kept)) : now n = old n := by
  refine hover.kept n (fun hin => ?_) (h.not_temporary (List.mem_cons_of_mem _ hn))
  obtain ⟨⟨m, x⟩, hx, rfl⟩ := List.mem_map.mp hin
  rcases List.mem_append.mp hx with hx | hx
  · exact hno x hx
  · exact logName_notMem_namesAt ((Prod.mk.inj (List.mem_singleton.mp hx)).1 ▸ hn)

section

variable {text : String} {now : String → Option String} (h : b.Orderly t p found)
  (hover : Overlay (b.IsTemporary t found)
    ((b.unitsAt t found).flatMap (b.writes (b.keeps old)) ++ [(logName, text)]) old now)

include h hover

/-- After an orderly run, the graph of every function is there as it should be. -/
theorem Orderly.graph_of_overlay {task : Task} (htask : task ∈ b.tasksAt t found) :
    now (b.graphOf task) = b.graphAfter old task := by
  have hkept (hno : b.graphs (b.keeps old) task = []) :
      now (b.graphOf task) = old (b.graphOf task) :=
    h.kept_of_unwritten hover (graphOf_mem_namesAt htask) fun x hx => by
      simpa [hno] using (h.graph_mem_writesAt htask).mp hx
  rw [graphAfter]
  cases hk : b.keeps old (b.graphOf task) with
  | true => exact hkept (by rw [graphs]; split <;> simp [hk])
  | false =>
    rw [if_neg Bool.false_ne_true]
    cases hresult : b.result task with
    | error e => exact hkept (by simp [graphs, hresult])
    | ok output =>
      refine hover.written _ _ (List.mem_append_left _ ((h.graph_mem_writesAt htask).mpr ?_))
      simp [graphs, hresult, hk]

/-- After an orderly run, the canonical functions of every unit are there as they should be. -/
theorem Orderly.canonical_of_overlay (hwrite : b.config.files.writeCanonical = true)
    {u : LoadedUnit} (hu : u ∈ b.unitsAt t found) :
    now (canonicalName u.stem) = b.canonicalAfter old u := by
  rw [canonicalAfter]
  cases hno : b.keeps old (canonicalName u.stem) || (b.canonicalForms u).isEmpty with
  | true =>
    have hnone : b.canonicals (b.keeps old) u = [] := by
      rw [canonicals, wants, hwrite, Bool.true_and, ← Bool.not_or, hno]
      rfl
    exact h.kept_of_unwritten hover (canonicalName_mem_namesAt hwrite hu) fun x hx => by
      simpa [hnone] using (h.canonical_mem_writesAt hwrite hu).mp hx
  | false =>
    refine hover.written _ _ (List.mem_append_left _ ((h.canonical_mem_writesAt hwrite hu).mpr ?_))
    rw [canonicals, wants, hwrite, Bool.true_and, ← Bool.not_or, hno]
    exact List.mem_singleton_self _

omit h in
/-- Any other file stays as it is, unless it has the name of a temporary file and is gone. -/
theorem other_of_overlay {n : String} (hn : n ∉ logName :: b.namesAt t found) :
    now n = old n ∨ now n = none ∧ b.IsTemporary t found n := by
  have hfst : n ∉ ((b.unitsAt t found).flatMap (b.writes (b.keeps old)) ++
      [(logName, text)]).map Prod.fst := by
    intro hin
    obtain ⟨x, hx, rfl⟩ := List.mem_map.mp hin
    rcases List.mem_append.mp hx with hx | hx
    · exact hn (List.mem_cons_of_mem _ (fst_mem_namesAt hx))
    · obtain rfl := List.mem_singleton.mp hx
      exact hn (List.mem_cons_self ..)
  by_cases htemporary : b.IsTemporary t found n
  · rcases hover.cleared n htemporary with hnone | hsame
    · exact .inr ⟨hnone, htemporary⟩
    · exact .inl hsame
  · exact .inl (hover.kept n hfst htemporary)

end

/-- After an orderly run, all files of the output directory are known. -/
theorem Leaves.exists_directory {report : BatchReport} {s : RunState}
    (hs : b.Leaves t p found old report s) (h : b.Orderly t p found) :
    ∃ now, s.tree.Contents p now ∧ b.Directory t found s.log old now := by
  obtain ⟨now, hnow, hover⟩ := hs.reaches.contents
  exact ⟨now, hnow, {
    graph := fun _ htask => h.graph_of_overlay hover htask
    canonical := fun hwrite _ hu => h.canonical_of_overlay hover hwrite hu
    log := hover.written _ _ (by simp)
    other := fun _ hn => other_of_overlay hover hn }⟩

/-- An output is read by its path. -/
theorem Orderly.read_iff (h : b.Orderly t p found) (hold : t.Contents p old) {t' : FileTree}
    {now : String → Option String} (hsame : SameOutside p t t') (hnow : t'.Contents p now)
    {n : String} (hn : n ∈ logName :: b.namesAt t found) {text : String} :
    t'.read (join b.inputs.outDir n) = .ok text ↔ now n = some text := by
  have hname := h.isOutput hold hn
  rw [(hold.hasDirectory h.output hsame).read_join hname.isName, hnow.entry?_eq]
  simp [hname.usable]

/-! ### The log -/

/-- What the log gets from a function are different rows. -/
theorem nodup_taskRows (b : Batch) (kept : String → Bool) (want : Bool) (task : Task) :
    (b.taskRows kept want task).Nodup := by
  rw [taskRows]
  split
  · exact List.nodup_nil
  · split
    · exact List.nodup_singleton _
    · split
      · exact List.nodup_nil
      · exact List.nodup_singleton _

/-- What the log gets from a unit are different rows. -/
theorem nodup_rows {u : LoadedUnit} (h : (u.tasks.map b.graphOf).Nodup) :
    (b.rows kept u).Nodup := by
  rw [rows]
  split
  · exact List.nodup_singleton _
  · rw [List.nodup_flatMap]
    refine ⟨fun task _ => nodup_taskRows .., ?_⟩
    rw [List.Nodup, List.pairwise_map] at h
    refine h.imp fun {task task'} hne r hr hr' => hne ?_
    exact graphOf_eq_of_key_eq ((key_of_mem_taskRows hr).symm.trans (key_of_mem_taskRows hr'))

/-- What the log gets from an orderly run are different rows. -/
theorem Orderly.nodup_rowsAt (h : b.Orderly t p found) :
    ((b.unitsAt t found).flatMap (b.rows kept)).Nodup := by
  rw [List.nodup_flatMap]
  constructor
  · intro u hu
    exact nodup_rows (List.nodup_append.mp ((List.nodup_flatMap.mp h.names).1 u hu)).1
  · have hstems := h.stems
    rw [List.Nodup, List.pairwise_map] at hstems
    refine hstems.imp fun {u u'} hne r hr hr' => hne ?_
    exact (unit_of_mem_rows hr).symm.trans (unit_of_mem_rows hr')

/-! ### The report -/

/-- What a function adds to the report, if a graph that is left alone is that of a function that
succeeds. -/
def taskReport (b : Batch) (kept : String → Bool) (task : Task) : BatchReport :=
  match b.result task with
  | .error _ => { functions := 1, failed := 1 }
  | .ok output =>
    if kept (b.graphOf task) then { functions := 1, skipped := 1 }
    else { functions := 1, written := 1, warnings := output.diagnostics.length }

/-- What a function adds to the report does not depend on whether canonical functions are wanted, if
a graph that is left alone is that of a function that succeeds. -/
theorem report_outcome {task : Task} (h : kept (b.graphOf task) = true → (b.result task).isOk)
    (want : Bool) : (b.outcome kept want task).report = b.taskReport kept task := by
  rw [outcome, taskReport]
  cases hr : b.result task with
  | error e =>
    have hk : kept (b.graphOf task) = false := by simpa [hr, Except.isOk, Except.toBool] using h
    simp [hk, FunctionOutcome.report]
  | ok output =>
    cases kept (b.graphOf task) <;> cases want <;> rfl

variable {count : BatchReport → Nat}

/-- A unit counts as one unit with its functions, or with one failure if it cannot be loaded. -/
theorem count_report (hcount : BatchReport.Adds count) {u : LoadedUnit}
    (hkept : ∀ task ∈ u.tasks, kept (b.graphOf task) = true → (b.result task).isOk) :
    count (b.report kept u) = count { units := 1 } +
      (if u.content.isOk then 0 else count { failed := 1 }) +
      (u.tasks.map fun task => count (b.taskReport kept task)).sum := by
  rw [report]
  split
  · rename_i e he
    have htasks : u.tasks = [] := by rw [LoadedUnit.tasks, he]
    rw [he, htasks]
    exact hcount.add { units := 1 } { failed := 1 }
  · rename_i content hok
    rw [hcount.add, hcount.sum, hok, List.map_map]
    simp only [Except.isOk, Except.toBool, if_true, Nat.add_zero]
    congr 2
    refine List.map_congr_left fun task htask => ?_
    rw [Function.comp_apply, report_outcome (hkept task htask)]

/-- A number in the report of all units: from the units, from those that do not load, and from the
functions. -/
theorem count_total (hcount : BatchReport.Adds count)
    (hkept : ∀ task ∈ b.tasksAt t found, kept (b.graphOf task) = true → (b.result task).isOk) :
    count (.total ((b.unitsAt t found).map (b.report kept))) =
      (b.unitsAt t found).length * count { units := 1 } +
      (b.unitsAt t found).countP (fun u => !u.content.isOk) * count { failed := 1 } +
      ((b.tasksAt t found).map fun task => count (b.taskReport kept task)).sum := by
  rw [tasksAt] at hkept
  rw [hcount.sum, tasksAt]
  generalize b.unitsAt t found = units at hkept ⊢
  induction units with
  | nil => simp
  | cons u us ih =>
    have hu := count_report hcount (u := u) fun task htask =>
      hkept task (List.mem_flatMap.mpr ⟨u, List.mem_cons_self .., htask⟩)
    have hus := ih fun task htask => hkept task (List.mem_append_right _ htask)
    rw [List.map_cons, List.map_cons, List.sum_cons, hu, hus, List.flatMap_cons, List.map_append,
      List.sum_append, List.countP_cons, List.length_cons]
    cases u.content.isOk
    · simp only [Bool.false_eq_true, if_false, Bool.not_false, if_true]
      ring
    · simp only [if_true, Bool.not_true, Bool.false_eq_true, if_false]
      ring

end Batch

end InstrGraph

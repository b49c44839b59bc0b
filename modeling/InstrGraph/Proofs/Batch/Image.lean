import InstrGraph.Batch
import InstrGraph.Proofs.Batch.Log
import InstrGraph.Proofs.Batch.Names
import Mathlib.Algebra.GroupWithZero.Nat

/-!
# What becomes of each function

What a run does, said for every function and unit by itself: no tree, no log and no order of work
comes in here. All that a function has to know of the output directory is which names are left
alone. `InstrGraph.Proofs.Batch.Steps` shows that a run does just this.

* `Task`: a function of a unit that loads. Its `outcome`, `writes` and `rows` are what the report,
  the output directory and the log get from it.
* `LoadedUnit`: a unit as it is read. Its `writes`, `rows` and `report` are made of those of its
  tasks, its canonical functions, and the failure to load.
-/

namespace InstrGraph

/-- A function of a unit, with what there is to know of the unit. -/
structure Task where
  stem : String
  metadata : Metadata
  function : Function

/-- The key of a function in the log. -/
def Task.key (task : Task) : LogKey := ⟨task.stem, task.function.name⟩

/-- A unit as it is read: its functions and its metadata, or why it cannot be loaded. -/
structure LoadedUnit where
  stem : String
  content : Except Error (List Function × Metadata)

/-- The functions of a unit, in the order of its summary. -/
def LoadedUnit.tasks (u : LoadedUnit) : List Task :=
  match u.content with
  | .ok (functions, metadata) => functions.map fun f => ⟨u.stem, metadata, f⟩
  | .error _ => []

/-! ### Reports -/

namespace BatchReport

/-- The empty report adds nothing. -/
@[simp] theorem add_empty (r : BatchReport) : r.add {} = r := rfl

/-- A number in a report that adds up, as all of them do. -/
structure Adds (count : BatchReport → Nat) : Prop where
  empty : count {} = 0
  add : ∀ a b, count (a.add b) = count a + count b

/-- The number of units adds up. -/
theorem adds_units : Adds BatchReport.units := ⟨rfl, fun _ _ => rfl⟩

/-- The number of functions adds up. -/
theorem adds_functions : Adds BatchReport.functions := ⟨rfl, fun _ _ => rfl⟩

/-- The number of graphs that are written adds up. -/
theorem adds_written : Adds BatchReport.written := ⟨rfl, fun _ _ => rfl⟩

/-- The number of graphs that are left alone adds up. -/
theorem adds_skipped : Adds BatchReport.skipped := ⟨rfl, fun _ _ => rfl⟩

/-- The number of failures adds up. -/
theorem adds_failed : Adds BatchReport.failed := ⟨rfl, fun _ _ => rfl⟩

/-- The number of warnings adds up. -/
theorem adds_warnings : Adds BatchReport.warnings := ⟨rfl, fun _ _ => rfl⟩

/-- A number that adds up is, in a total, the sum of the numbers. -/
theorem Adds.sum {count : BatchReport → Nat} (h : Adds count) (rs : List BatchReport) :
    count (total rs) = (rs.map count).sum := by
  have hfoldl (r : BatchReport) :
      count (rs.foldl BatchReport.add r) = count r + (rs.map count).sum := by
    induction rs generalizing r with
    | nil => simp
    | cons x rs ih =>
      rw [List.foldl_cons, ih, h.add, List.map_cons, List.sum_cons, Nat.add_assoc]
  rw [total, hfoldl, h.empty, Nat.zero_add]

end BatchReport

namespace Batch

/-- The unit of a summary, if its name is that of one. -/
def unit? (b : Batch) (t : FileTree) (summary : String) : Option LoadedUnit :=
  (UnitPaths.resolve? summary b.inputs.globalsDir b.inputs.structsDir b.config.files).map
    fun unit => ⟨unit.stem, loadUnit t unit⟩

/-- The units of some summaries. -/
def unitsAt (b : Batch) (t : FileTree) (summaries : List String) : List LoadedUnit :=
  summaries.filterMap (b.unit? t)

/-- The functions of the units of some summaries. -/
def tasksAt (b : Batch) (t : FileTree) (summaries : List String) : List Task :=
  (b.unitsAt t summaries).flatMap LoadedUnit.tasks

/-! ### One function -/

/-- What is made of a function. -/
def result (b : Batch) (task : Task) : Except Error Output :=
  processFunction task.function task.metadata b.frequency b.config

/-- The name of the graph of a function. -/
def graphOf (b : Batch) (task : Task) : String :=
  graphName task.stem task.function.name b.config.files

/-- What is made of the function of a task. -/
theorem processFunction_task (b : Batch) (task : Task) :
    processFunction task.function task.metadata b.frequency b.config = b.result task := rfl

/-- The path of the graph of a task is its name in the output directory. -/
theorem graphPath_task (b : Batch) (task : Task) :
    graphPath b.inputs.outDir task.stem task.function.name b.config.files =
      Path.join b.inputs.outDir (b.graphOf task) :=
  graphPath_eq_join ..

/-- Functions whose graphs have names of their own have keys of their own. -/
theorem graphOf_eq_of_key_eq {b : Batch} {task task' : Task} (h : task.key = task'.key) :
    b.graphOf task = b.graphOf task' := by
  obtain ⟨hstem, hname⟩ := LogKey.mk.inj h
  rw [graphOf, graphOf, hstem, hname]

/-- The name of the canonical functions of a unit, unless they are not to be written at all. -/
def canonicalOf (b : Batch) (u : LoadedUnit) : List String :=
  if b.config.files.writeCanonical then [canonicalName u.stem] else []

/-- What becomes of a function: `kept` says which names are left alone, `want` whether canonical
functions are wanted. -/
def outcome (b : Batch) (kept : String → Bool) (want : Bool) (task : Task) : FunctionOutcome :=
  if kept (b.graphOf task) && !want then .skipped none
  else
    match b.result task with
    | .error _ => .failed
    | .ok output =>
      let canonical := if want then some output.canonical else none
      if kept (b.graphOf task) then .skipped canonical
      else .written canonical output.diagnostics.length

/-- The output of a function: a name and a text. -/
def graphs (b : Batch) (kept : String → Bool) (task : Task) : List (String × String) :=
  match b.result task with
  | .error _ => []
  | .ok output =>
    if kept (b.graphOf task) then []
    else [(b.graphOf task, b.textOf output.document.toJson)]

/-- What the log gets from a function. -/
def taskRows (b : Batch) (kept : String → Bool) (want : Bool) (task : Task) : List LogRow :=
  if kept (b.graphOf task) && !want then []
  else
    match b.result task with
    | .error e => [⟨task.key, { error := some (.ofError e) }⟩]
    | .ok output =>
      if kept (b.graphOf task) || output.diagnostics.isEmpty then []
      else [⟨task.key, { warnings := output.diagnostics.map Diagnostic.line }⟩]

/-! ### One unit -/

/-- The canonical functions of a unit: of those that succeed, in the order of its summary. -/
def canonicalForms (b : Batch) (u : LoadedUnit) : List CanonicalFunction :=
  u.tasks.filterMap fun task => (b.result task).toOption.map Output.canonical

/-- The canonical functions of a unit are wanted. -/
def wants (b : Batch) (kept : String → Bool) (u : LoadedUnit) : Bool :=
  b.config.files.writeCanonical && !kept (canonicalName u.stem)

/-- The text of the canonical functions of a unit. -/
def canonicalText (b : Batch) (u : LoadedUnit) : String :=
  b.textOf (.array ((b.canonicalForms u).map CanonicalFunction.toJson))

/-- The output of a unit as a whole. -/
def canonicals (b : Batch) (kept : String → Bool) (u : LoadedUnit) : List (String × String) :=
  if b.wants kept u && !(b.canonicalForms u).isEmpty then
    [(canonicalName u.stem, b.canonicalText u)]
  else []

/-- All outputs of a unit. -/
def writes (b : Batch) (kept : String → Bool) (u : LoadedUnit) : List (String × String) :=
  u.tasks.flatMap (b.graphs kept) ++ b.canonicals kept u

/-- What the log gets from a unit. -/
def rows (b : Batch) (kept : String → Bool) (u : LoadedUnit) : List LogRow :=
  match u.content with
  | .error e => [⟨.wholeUnit u.stem, { error := some (.ofError e) }⟩]
  | .ok _ => u.tasks.flatMap (b.taskRows kept (b.wants kept u))

/-- What a unit adds to the report. -/
def report (b : Batch) (kept : String → Bool) (u : LoadedUnit) : BatchReport :=
  match u.content with
  | .error _ => { units := 1, failed := 1 }
  | .ok _ =>
    ({ units := 1 } : BatchReport).add
      (.total (u.tasks.map fun task => (b.outcome kept (b.wants kept u) task).report))

/-- The names that a unit may write to. -/
def names (b : Batch) (u : LoadedUnit) : List String :=
  u.tasks.map b.graphOf ++ b.canonicalOf u

section

variable {b : Batch} {kept : String → Bool} {want : Bool} {task : Task} {u : LoadedUnit}

/-- The output of a function has the name of its graph. -/
theorem fst_of_mem_graphs {x : String × String} (h : x ∈ b.graphs kept task) :
    x.1 = b.graphOf task := by
  rw [graphs] at h
  split at h
  · cases h
  · split at h
    · cases h
    · obtain rfl := List.mem_singleton.mp h
      rfl

/-- What the log gets from a function is under its key. -/
theorem key_of_mem_taskRows {r : LogRow} (h : r ∈ b.taskRows kept want task) :
    r.key = task.key := by
  rw [taskRows] at h
  split at h
  · cases h
  · split at h
    · obtain rfl := List.mem_singleton.mp h
      rfl
    · split at h
      · cases h
      · obtain rfl := List.mem_singleton.mp h
        rfl

/-- The tasks of a unit have its stem. -/
theorem stem_of_mem_tasks (h : task ∈ u.tasks) : task.stem = u.stem := by
  rw [LoadedUnit.tasks] at h
  split at h
  · obtain ⟨f, -, rfl⟩ := List.mem_map.mp h
    rfl
  · cases h

/-- What the log gets from a unit is under its stem. -/
theorem unit_of_mem_rows {r : LogRow} (h : r ∈ b.rows kept u) : r.key.unit = u.stem := by
  rw [rows] at h
  split at h
  · obtain rfl := List.mem_singleton.mp h
    rfl
  · obtain ⟨task, htask, hr⟩ := List.mem_flatMap.mp h
    rw [key_of_mem_taskRows hr]
    exact stem_of_mem_tasks htask

/-- Only names of the unit are written to. -/
theorem fst_mem_names_of_mem_writes {x : String × String} (h : x ∈ b.writes kept u) :
    x.1 ∈ b.names u := by
  rw [names, List.mem_append]
  rcases List.mem_append.mp h with h | h
  · obtain ⟨task, htask, hx⟩ := List.mem_flatMap.mp h
    exact .inl (List.mem_map.mpr ⟨task, htask, (fst_of_mem_graphs hx).symm⟩)
  · rw [canonicals] at h
    split at h
    · rename_i hwants
      obtain rfl := List.mem_singleton.mp h
      rw [wants, Bool.and_eq_true, Bool.and_eq_true] at hwants
      exact .inr (by simp [canonicalOf, hwants.1.1])
    · cases h

/-- A unit that cannot be loaded has no outputs. -/
theorem writes_of_error {e : Error} (h : u.content = .error e) : b.writes kept u = [] := by
  have htasks : u.tasks = [] := by rw [LoadedUnit.tasks, h]
  simp [writes, canonicals, canonicalForms, htasks]

/-- The canonical functions that a unit comes to are those of its functions that succeed. -/
theorem filterMap_canonical?_outcome (b : Batch) (kept : String → Bool) (want : Bool)
    (tasks : List Task) :
    (tasks.map (b.outcome kept want)).filterMap FunctionOutcome.canonical? =
      if want then tasks.filterMap fun task => (b.result task).toOption.map Output.canonical
      else [] := by
  have hone (task : Task) : (b.outcome kept want task).canonical? =
      if want then (b.result task).toOption.map Output.canonical else none := by
    rw [outcome]
    cases want <;> cases b.result task <;> cases kept (b.graphOf task) <;> rfl
  rw [List.filterMap_map]
  simp only [Function.comp_def, hone]
  cases want <;> simp

end

end Batch

end InstrGraph

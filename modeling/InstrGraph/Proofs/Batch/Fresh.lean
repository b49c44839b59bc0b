import InstrGraph.Proofs.Batch.Check
import InstrGraph.Proofs.Batch.Outputs
import Mathlib.Data.List.Basic

/-!
# A run into an empty directory

A run is the image of the work on single functions, if its outputs do not get in each other's way
(`run_isImage`): the directory, the log and the report say of every function just what becomes of
it alone, and of every unit whether it loads, in whatever order they are worked on.

That no output has the name of the temporary file of another one has to be asked for: a suffix of
graphs such as `.tmp` makes such names, and then an output is lost (`graph_lost_of_temporary`).
-/

namespace InstrGraph

open FileTree (Contents HasDirectory IsUsable SameOutside temporaryName)
open InstrGraph.Path (IsName join)

/-- What the log says of a unit that does not load. -/
def LoadedUnit.failureRows (u : LoadedUnit) : List LogRow :=
  match u.content with
  | .error e => [⟨.wholeUnit u.stem, { error := some (.ofError e) }⟩]
  | .ok _ => []

namespace Batch

variable {b : Batch} {t : FileTree} {p : Place} {found : List String} {schedule : Schedule}

/-- What the log says of a function that fails. -/
def failureRows (b : Batch) (task : Task) : List LogRow :=
  match b.result task with
  | .error e => [⟨task.key, { error := some (.ofError e) }⟩]
  | .ok _ => []

/-- What is to be warned of in a function that succeeds. -/
def diagnosticsOf (b : Batch) (task : Task) : List Diagnostic :=
  match b.result task with
  | .error _ => []
  | .ok output => output.diagnostics

/-- What the log says of a function that succeeds with warnings. -/
def warningRows (b : Batch) (task : Task) : List LogRow :=
  if (b.diagnosticsOf task).isEmpty then []
  else [⟨task.key, { warnings := (b.diagnosticsOf task).map Diagnostic.line }⟩]

/-- What a run leaves behind is the image of the work on single functions. -/
structure IsImage (b : Batch) (t : FileTree) (p : Place) (found : List String)
    (report : BatchReport) (s : RunState) : Prop where
  /-- There is a graph just if the function succeeds, and it is its document. -/
  graph : ∀ task ∈ b.tasksAt t found, ∀ text,
    s.tree.read (graphPath b.inputs.outDir task.stem task.function.name b.config.files) = .ok text ↔
      ∃ output, b.result task = .ok output ∧ text = b.textOf output.document.toJson
  /-- The canonical functions are those of the functions that succeed, if there are any. -/
  canonical : b.config.files.writeCanonical = true → ∀ u ∈ b.unitsAt t found, ∀ text,
    s.tree.read (canonicalPath b.inputs.outDir u.stem) = .ok text ↔
      b.canonicalForms u ≠ [] ∧ text = b.canonicalText u
  /-- There are no other files. -/
  only : ∀ q, p.Inside q → (s.tree.entry? q).isSome →
    ∃ n ∈ logName :: b.namesAt t found, q = p ++ [n]
  log_read : s.tree.read (errorsPath b.inputs.outDir) = .ok s.log.toJson.pretty
  log_sorted : ErrorLog.IsSorted s.log.rows
  log_rows : s.log.rows.Perm
    ((b.unitsAt t found).flatMap LoadedUnit.failureRows ++
      ((b.tasksAt t found).flatMap b.failureRows ++ (b.tasksAt t found).flatMap b.warningRows))
  units : report.units = found.length
  functions : report.functions = (b.tasksAt t found).length
  written : report.written = (b.tasksAt t found).countP fun task => (b.result task).isOk
  skipped : report.skipped = 0
  failed : report.failed = (b.unitsAt t found).countP (fun u => !u.content.isOk) +
    (b.tasksAt t found).countP fun task => !(b.result task).isOk
  warnings : report.warnings =
    ((b.tasksAt t found).map fun task => (b.diagnosticsOf task).length).sum

/-! ### Nothing is left alone -/

/-- Nothing is left alone. -/
def keepsNothing : String → Bool := fun _ => false

/-- In an empty directory nothing is left alone. -/
theorem keeps_none (b : Batch) : b.keeps (fun _ => none) = keepsNothing := by
  funext n
  simp [keeps, keepsNothing]

/-- The rows of a unit that nothing is left alone of are those of its failures and its warnings. -/
theorem rows_keepsNothing (u : LoadedUnit) : b.rows keepsNothing u =
    u.failureRows ++ u.tasks.flatMap fun task => b.failureRows task ++ b.warningRows task := by
  have hone (want : Bool) (task : Task) :
      b.taskRows keepsNothing want task = b.failureRows task ++ b.warningRows task := by
    rw [taskRows, failureRows, warningRows, diagnosticsOf]
    cases b.result task <;> simp [keepsNothing]
  rw [rows, LoadedUnit.failureRows]
  cases hu : u.content with
  | error e => simp [LoadedUnit.tasks, hu]
  | ok content => simp only [funext (hone _), List.nil_append]

/-- The rows of all units are those of the units that fail, of the functions that fail, and of the
warnings. -/
theorem rowsAt_keepsNothing (b : Batch) (units : List LoadedUnit) :
    (units.flatMap (b.rows keepsNothing)).Perm
      (units.flatMap LoadedUnit.failureRows ++
        ((units.flatMap LoadedUnit.tasks).flatMap b.failureRows ++
          (units.flatMap LoadedUnit.tasks).flatMap b.warningRows)) := by
  have hrows : b.rows keepsNothing = fun u => u.failureRows ++
      u.tasks.flatMap fun task => b.failureRows task ++ b.warningRows task :=
    funext rows_keepsNothing
  rw [hrows]
  refine (List.flatMap_append_perm ..).symm.trans (List.Perm.append_left _ ?_)
  rw [← List.flatMap_assoc]
  exact (List.flatMap_append_perm ..).symm

/-- A sum of ones and zeros is the number of ones. -/
theorem sum_map_eq_countP {α : Type} {f : α → Nat} (q : α → Bool)
    (h : ∀ a, f a = if q a then 1 else 0) (l : List α) : (l.map f).sum = l.countP q := by
  induction l with
  | nil => rfl
  | cons a l ih => rw [List.map_cons, List.sum_cons, List.countP_cons, h, ih, Nat.add_comm]

/-- A function that nothing is left alone of is written if it succeeds, with its warnings, and
failed otherwise. -/
theorem taskReport_keepsNothing (b : Batch) (task : Task) : b.taskReport keepsNothing task =
    if (b.result task).isOk then
      { functions := 1, written := 1, warnings := (b.diagnosticsOf task).length }
    else { functions := 1, failed := 1 } := by
  rw [taskReport, diagnosticsOf]
  cases b.result task <;> rfl

/-- A number in the report of a run for which nothing is left alone. -/
theorem count_keepsNothing {count : BatchReport → Nat} (hcount : BatchReport.Adds count)
    (b : Batch) (t : FileTree) (found : List String) :
    count (.total ((b.unitsAt t found).map (b.report keepsNothing))) =
      (b.unitsAt t found).length * count { units := 1 } +
      (b.unitsAt t found).countP (fun u => !u.content.isOk) * count { failed := 1 } +
      ((b.tasksAt t found).map fun task => count
        (if (b.result task).isOk then
          { functions := 1, written := 1, warnings := (b.diagnosticsOf task).length }
        else { functions := 1, failed := 1 })).sum := by
  rw [count_total hcount fun task _ hk => absurd hk Bool.false_ne_true]
  simp only [taskReport_keepsNothing]

/-- Every summary that is found is one of a unit. -/
theorem length_unitsAt (h : b.Orderly t p found) (ht : t.IsProper) :
    (b.unitsAt t found).length = found.length := by
  rw [unitsAt, List.filterMap_length_eq_length]
  intro summary hsummary
  obtain ⟨stem, hstem⟩ := FileTree.exists_stem?_of_mem_unitsBelow ht h.directory h.discovered
    hsummary
  simp [unit?, UnitPaths.resolve?, hstem]

/-! ### The image -/

namespace Leaves

variable {report : BatchReport} {s : RunState}

/-- Just the functions that succeed are written. -/
theorem written_eq (hs : b.Leaves t p found (fun _ => none) report s) :
    report.written = (b.tasksAt t found).countP fun task => (b.result task).isOk := by
  rw [hs.report_eq, keeps_none, count_keepsNothing BatchReport.adds_written b t found,
    sum_map_eq_countP (fun task => (b.result task).isOk) (fun task => by split <;> rfl)]
  simp

/-- What an orderly run leaves behind in an empty directory is the image of its inputs. -/
theorem isImage (hs : b.Leaves t p found (fun _ => none) report s) (h : b.Orderly t p found)
    (hempty : t.Contents p fun _ => none) (ht : t.IsProper) :
    b.IsImage t p found report s := by
  obtain ⟨now, hnow, hdirectory⟩ := hs.exists_directory h
  have hread {n text : String} (hn : n ∈ logName :: b.namesAt t found) :
      s.tree.read (join b.inputs.outDir n) = .ok text ↔ now n = some text :=
    h.read_iff hempty hs.reaches.same hnow hn
  have hlog := hs.reaches.log
  have hreport := hs.report_eq
  rw [keeps_none] at hreport
  exact {
    graph := fun task htask text => by
      rw [graphPath_eq_join, ← graphOf, hread (List.mem_cons_of_mem _ (graphOf_mem_namesAt htask)),
        hdirectory.graph task htask, graphAfter, keeps_none]
      cases b.result task <;> simp [keepsNothing, eq_comm]
    canonical := fun hwrite u hu text => by
      rw [canonicalPath_eq_join,
        hread (List.mem_cons_of_mem _ (canonicalName_mem_namesAt hwrite hu)),
        hdirectory.canonical hwrite u hu, canonicalAfter, keeps_none]
      cases b.canonicalForms u <;> simp [keepsNothing, eq_comm]
    only := fun q hq hsome => by
      obtain ⟨way, hway, rfl⟩ := hq
      obtain ⟨e, he⟩ := Option.isSome_iff_exists.mp hsome
      obtain ⟨n, text, rfl, -, htext⟩ := (hnow way hway e).mp he
      refine ⟨n, by_contra fun hn => ?_, rfl⟩
      rcases hdirectory.other n hn with hold | ⟨hnone, -⟩
      · simp [hold] at htext
      · simp [hnone] at htext
    log_read := by
      rw [errorsPath_eq_join, hread (List.mem_cons_self ..), hdirectory.log]
    log_sorted := hlog.sorted
    log_rows := by
      have hperm := hlog.perm h.nodup_rowsAt
      rw [keeps_none] at hperm
      exact hperm.trans (b.rowsAt_keepsNothing (b.unitsAt t found))
    units := by
      rw [hreport, count_keepsNothing BatchReport.adds_units b t found, length_unitsAt h ht,
        sum_map_eq_countP (fun _ => false) (fun task => by split <;> rfl)]
      simp
    functions := by
      rw [hreport, count_keepsNothing BatchReport.adds_functions b t found,
        sum_map_eq_countP (fun _ => true) (fun task => by split <;> rfl)]
      simp
    written := hs.written_eq
    skipped := by
      rw [hreport, count_keepsNothing BatchReport.adds_skipped b t found,
        sum_map_eq_countP (fun _ => false) (fun task => by split <;> rfl)]
      simp
    failed := by
      rw [hreport, count_keepsNothing BatchReport.adds_failed b t found,
        sum_map_eq_countP (fun task => !(b.result task).isOk) (fun task => by split <;> simp_all)]
      simp
    warnings := by
      rw [hreport, count_keepsNothing BatchReport.adds_warnings b t found]
      simp only [Nat.mul_zero, Nat.zero_add]
      refine congrArg List.sum (List.map_congr_left fun task _ => ?_)
      rw [diagnosticsOf]
      cases b.result task <;> rfl }

end Leaves

/-- A run into an empty directory is the image of the work on single functions. -/
theorem run_isImage (ht : t.IsProper) (h : b.Orderly t p found)
    (hempty : t.Contents p fun _ => none) (hschedule : schedule.IsComplete) :
    ∃ report s, b.run schedule ⟨t, {}⟩ = (.ok report, s) ∧ b.IsImage t p found report s := by
  obtain ⟨report, s, hrun, hs⟩ := h.exists_run hempty hschedule
  exact ⟨report, s, hrun, hs.isImage h hempty ht⟩

end Batch

/-! ### Functions that succeed, functions that fail and a unit that does not load -/

/-- A unit with a function that succeeds and one that fails, and a unit that does not load. -/
def mixedUnits : FileTree where
  entries :=
    [(["out"], .directory),
      (["summaries"], .directory),
      (["summaries", "u_info_summary.json"],
        .file "[[\"f\",[],[]],[\"g\",[],[[\"0\",[[1,\"br\",\"br\"]]]]]]"),
      (["summaries", "v_info_summary.json"], .file "[")]

/-- A run over them. -/
def mixedRun : Batch where
  config := {}
  frequency := {}
  inputs := { summaries := "summaries", globalsDir := none, structsDir := none, outDir := "out" }

/-- The summaries that are found. -/
def mixedSummaries : List String :=
  ["summaries/u_info_summary.json", "summaries/v_info_summary.json"]

/-- The run passes the check. -/
def checkedMixed : CheckedRun where
  run := mixedRun
  tree := mixedUnits
  outputs := ["out"]
  summaries := ["summaries"]
  found := mixedSummaries
  checks := by decide +kernel

/-- What else is computed: one of the two functions succeeds, and one of the two units loads. A
branch without operands cannot be given its edges. -/
theorem computed_mixed :
    (∀ m ∈ mixedRun.namesAt mixedUnits mixedSummaries,
        ∀ n ∈ mixedRun.namesAt mixedUnits mixedSummaries, temporaryName m ≠ n) ∧
      ((mixedRun.tasksAt mixedUnits mixedSummaries).map fun task =>
        (task.function.name, (mixedRun.result task).isOk)) = [("f", true), ("g", false)] ∧
      ((mixedRun.unitsAt mixedUnits mixedSummaries).map fun u => (u.stem, u.content.isOk)) =
        [("u", true), ("v", false)] := by
  decide +kernel

/-- The tree of the mixed units is a proper one. -/
theorem isProper_mixed : mixedUnits.IsProper := checkedMixed.checks.isProper

/-- The run over the mixed units is orderly. -/
theorem orderly_mixedRun : mixedRun.Orderly mixedUnits ["out"] mixedSummaries :=
  checkedMixed.checks.orderly computed_mixed.1

/-- The output directory of the mixed units is empty. -/
theorem contents_mixed : mixedUnits.Contents ["out"] fun _ => none :=
  checkedMixed.checks.contents

/-- One function succeeds and one does not. -/
theorem countP_mixed (q : Bool → Bool) :
    ((mixedRun.tasksAt mixedUnits mixedSummaries).countP fun task =>
      q (mixedRun.result task).isOk) = [true, false].countP q := by
  have hresults := congrArg (List.countP q ∘ List.map Prod.snd) computed_mixed.2.1
  simpa [List.countP_map, Function.comp_def] using hresults

/-- The function that fails and the unit that does not load are counted and logged, and the other
function has its graph. -/
theorem run_isImage_of_mixedUnits :
    (mixedUnits.IsProper ∧ mixedRun.Orderly mixedUnits ["out"] mixedSummaries ∧
      mixedUnits.Contents ["out"] fun _ => none) ∧
    ∃ report s, mixedRun.run .inOrder ⟨mixedUnits, {}⟩ = (.ok report, s) ∧
      mixedRun.IsImage mixedUnits ["out"] mixedSummaries report s ∧
      report.written = 1 ∧ report.failed = 2 := by
  obtain ⟨report, s, hrun, himage⟩ := Batch.run_isImage isProper_mixed orderly_mixedRun
    contents_mixed Schedule.isComplete_inOrder
  have hunits : (mixedRun.unitsAt mixedUnits mixedSummaries).countP
      (fun u => !u.content.isOk) = 1 := by
    have hloaded := congrArg (List.countP (fun x => !x.2)) computed_mixed.2.2
    simpa [List.countP_map, Function.comp_def] using hloaded
  refine ⟨⟨isProper_mixed, orderly_mixedRun, contents_mixed⟩, report, s, hrun, himage, ?_, ?_⟩
  · exact himage.written.trans (countP_mixed id)
  · rw [himage.failed, hunits, countP_mixed (!·)]
    rfl

/-! ### A graph that is lost -/

/-- A unit with two functions. -/
def lossyUnits : FileTree where
  entries :=
    [(["out"], .directory),
      (["summaries"], .directory),
      (["summaries", "u_info_summary.json"], .file "[[\"f.json\",[],[]],[\"f\",[],[]]]")]

/-- The summary that is found. -/
def lossySummaries : List String := ["summaries/u_info_summary.json"]

/-- A run over it whose suffix of graphs makes the temporary file of one graph the other one. -/
def lossyRun : Batch where
  config := { files := { graphSuffix := ".tmp" } }
  frequency := {}
  inputs := { summaries := "summaries", globalsDir := none, structsDir := none, outDir := "out" }

/-- The run passes the check. -/
def checkedLossy : CheckedRun where
  run := lossyRun
  tree := lossyUnits
  outputs := ["out"]
  summaries := ["summaries"]
  found := lossySummaries
  checks := by decide +kernel

/-- What else is computed: both functions succeed, but a graph is gone afterwards. -/
theorem computed_lossy :
    ((lossyRun.tasksAt lossyUnits lossySummaries).map fun task =>
        (task.stem, task.function.name, (lossyRun.result task).isOk)) =
          [("u", "f.json", true), ("u", "f", true)] ∧
      (lossyRun.runFound .inOrder ⟨lossyUnits, {}⟩ lossySummaries).2.tree.find
        (graphPath "out" "u" "f.json" lossyRun.config.files) = .error .notFound := by
  decide +kernel

/-- The configuration of the lossy run is sensible, and its tables are loaded. -/
theorem ofConfig_lossy :
    Batch.ofConfig lossyUnits lossyRun.config lossyRun.inputs = .ok lossyRun := by
  have hvalid : lossyRun.config.validate = .ok () := checkedLossy.checks.valid
  have htables : lossyUnits.loadFrequency lossyRun.config.frequency = .ok {} := by
    have hnone : FrequencyTables.ofCounts [] [] lossyRun.config.frequency = {} := by
      simp [FrequencyTables.ofCounts, selectCommon, lossyRun]
    exact congrArg Except.ok hnone
  rw [Batch.ofConfig, hvalid, htables]
  rfl

/-- The outputs of the lossy run have names of their own. -/
theorem separate_lossyRun : lossyRun.Separate lossyUnits ["out"] lossySummaries :=
  checkedLossy.checks.separate

/-- A run into an empty directory is not the image of the work on single functions, if all that is
known of its outputs is that their names are different and that they can be saved: of two graphs
here, both of functions that succeed, one is gone when the other one has been saved. -/
theorem graph_lost_of_temporary :
    Batch.ofConfig lossyUnits lossyRun.config lossyRun.inputs = .ok lossyRun ∧
      lossyRun.Separate lossyUnits ["out"] lossySummaries ∧
      (lossyUnits.Contents ["out"] fun _ => none) ∧
      (∃ task ∈ lossyRun.tasksAt lossyUnits lossySummaries, task.function.name = "f.json" ∧
        (lossyRun.result task).isOk = true) ∧
      (lossyRun.run .inOrder ⟨lossyUnits, {}⟩).2.tree.find
          (graphPath "out" "u" "f.json" lossyRun.config.files) = .error .notFound ∧
      ¬ ∃ report s, lossyRun.run .inOrder ⟨lossyUnits, {}⟩ = (.ok report, s) ∧
        lossyRun.IsImage lossyUnits ["out"] lossySummaries report s := by
  have hfind : (lossyRun.run .inOrder ⟨lossyUnits, {}⟩).2.tree.find
      (graphPath "out" "u" "f.json" lossyRun.config.files) = .error .notFound := by
    rw [Batch.run_eq_runFound separate_lossyRun.discovered]
    exact computed_lossy.2
  obtain ⟨task, htask, heq⟩ := List.mem_map.mp
    (computed_lossy.1 ▸ List.mem_cons_self .. : ("u", "f.json", true) ∈
      (lossyRun.tasksAt lossyUnits lossySummaries).map fun task =>
        (task.stem, task.function.name, (lossyRun.result task).isOk))
  obtain ⟨hstem, hname, hok⟩ : task.stem = "u" ∧ task.function.name = "f.json" ∧
      (lossyRun.result task).isOk = true := by simpa using heq
  refine ⟨ofConfig_lossy, separate_lossyRun, checkedLossy.checks.contents,
    ⟨task, htask, hname, hok⟩, hfind, ?_⟩
  rintro ⟨report, s, hrun, himage⟩
  cases hresult : lossyRun.result task with
  | error e => simp [hresult, Except.isOk, Except.toBool] at hok
  | ok output =>
    have hread := (himage.graph task htask _).mpr ⟨output, hresult, rfl⟩
    rw [hrun] at hfind
    rw [hstem, hname, FileTree.read, show lossyRun.inputs.outDir = "out" from rfl, hfind] at hread
    cases hread

end InstrGraph

import InstrGraph.Proofs.Batch.Fresh

/-!
# Resuming a run

A run leaves alone what is there, so an interrupted run can be taken up again: if the output
directory has some of the files that a run from the start leaves, a run adds the others, finds the
same failures and counts the same functions, and a further run writes nothing
(`run_resumes`).

A function whose graph is there is not worked on unless the canonical functions of its unit are
missing, so the argument is that whatever is left alone belongs to a function that succeeds
(`isOk_of_keeps`). Everything else is worked on as at the start.
-/

namespace InstrGraph

open FileTree (Contents HasDirectory IsUsable SameOutside temporaryName)
open InstrGraph.Path (IsName join)

namespace Batch

variable {b : Batch} {t t' : FileTree} {p : Place} {found : List String} {schedule : Schedule}

/-- The same everywhere, apart from the log in a directory. -/
def SameButLog (p : Place) (t t' : FileTree) : Prop :=
  ∀ q, q ≠ p ++ [logName] → t'.entry? q = t.entry? q

/-! ### What is left alone -/

section

variable {log log' : ErrorLog} {old now now' : String → Option String}
  (h : b.Orderly t p found) (hskip : b.config.files.skipExisting = true)
  (hnow : b.Directory t found log (fun _ => none) now)
  (hpart : ∀ n text, old n = some text → n = logName ∨ now n = some text)

/-- A run that skips existing files leaves alone what is there. -/
theorem keeps_eq (hskip : b.config.files.skipExisting = true) (old : String → Option String)
    (n : String) : b.keeps old n = (old n).isSome := by
  rw [keeps, hskip, Bool.true_and]

include hpart in
/-- Outputs that are there already are those of the finished run. -/
theorem eq_of_part {n text : String} (hn : n ∈ b.namesAt t found) (hold : old n = some text) :
    now n = some text :=
  (hpart n text hold).resolve_left fun heq => logName_notMem_namesAt (heq ▸ hn)

include hskip hnow hpart

/-- A graph that is left alone is that of a function that succeeds. -/
theorem isOk_of_keeps {task : Task} (htask : task ∈ b.tasksAt t found)
    (hkeeps : b.keeps old (b.graphOf task) = true) : (b.result task).isOk := by
  rw [keeps_eq hskip, Option.isSome_iff_exists] at hkeeps
  obtain ⟨text, hold⟩ := hkeeps
  have htext := eq_of_part hpart (graphOf_mem_namesAt htask) hold
  rw [hnow.graph task htask, graphAfter, keeps_none] at htext
  cases hr : b.result task with
  | error e => simp [hr, keepsNothing] at htext
  | ok output => rfl

/-- A further run leaves the graph of the finished run behind. -/
theorem graphAfter_eq {task : Task} (htask : task ∈ b.tasksAt t found) :
    b.graphAfter old task = now (b.graphOf task) := by
  cases hold : old (b.graphOf task) with
  | some text =>
    rw [graphAfter, keeps_eq hskip, hold, eq_of_part hpart (graphOf_mem_namesAt htask) hold]
    rfl
  | none =>
    rw [hnow.graph task htask, graphAfter, graphAfter, keeps_eq hskip, hold, keeps_none]
    rfl

/-- A further run leaves the canonical functions of the finished run behind. -/
theorem canonicalAfter_eq (hwrite : b.config.files.writeCanonical = true) {u : LoadedUnit}
    (hu : u ∈ b.unitsAt t found) : b.canonicalAfter old u = now (canonicalName u.stem) := by
  cases hold : old (canonicalName u.stem) with
  | some text =>
    rw [canonicalAfter, keeps_eq hskip, hold,
      eq_of_part hpart (canonicalName_mem_namesAt hwrite hu) hold]
    rfl
  | none =>
    rw [hnow.canonical hwrite u hu, canonicalAfter, canonicalAfter, keeps_eq hskip, hold,
      keeps_none]
    rfl

/-- The same files come out, but for the log. -/
theorem Directory.eq_of_part (hnow' : b.Directory t found log' old now') {n : String}
    (hn : n ≠ logName) : now' n = now n := by
  by_cases hmem : n ∈ b.namesAt t found
  · rw [(b.namesAt_perm t found).mem_iff, List.mem_append] at hmem
    rcases hmem with hmem | hmem
    · obtain ⟨task, htask, rfl⟩ := List.mem_map.mp hmem
      rw [hnow'.graph task htask, graphAfter_eq hskip hnow hpart htask]
    · obtain ⟨u, hu, hmem⟩ := List.mem_flatMap.mp hmem
      obtain ⟨hwrite, rfl⟩ := mem_canonicalOf.mp hmem
      rw [hnow'.canonical hwrite u hu, canonicalAfter_eq hskip hnow hpart hwrite hu]
  · have hmem : n ∉ logName :: b.namesAt t found := by simp [hn, hmem]
    have hnone : now n = none := by
      rcases hnow.other n hmem with heq | ⟨heq, -⟩ <;> rw [heq]
    have hold : old n = none := by
      rw [Option.eq_none_iff_forall_ne_some]
      intro text htext
      rcases hpart n text htext with heq | heq
      · exact hn heq
      · simp [hnone] at heq
    rcases hnow'.other n hmem with heq | ⟨heq, -⟩
    · rw [heq, hold, hnone]
    · rw [heq, hnone]

end

/-! ### What is recorded and counted -/

section

variable {kept kept' : String → Bool}

/-- The rows with failures do not depend on which graphs are left alone. -/
theorem mem_taskRows_iff {task : Task} (hkept : kept (b.graphOf task) = true → (b.result task).isOk)
    (want : Bool) {r : LogRow} (hr : r.entry.error.isSome) :
    r ∈ b.taskRows kept want task ↔ r ∈ b.failureRows task := by
  rw [taskRows, failureRows]
  cases hresult : b.result task with
  | error e =>
    have hk : kept (b.graphOf task) = false := by
      simpa [hresult, Except.isOk, Except.toBool] using hkept
    simp [hk]
  | ok output =>
    have hne {ws : List String} : r ≠ ⟨task.key, { warnings := ws }⟩ := by
      rintro rfl
      simp at hr
    cases kept (b.graphOf task) <;> cases want <;> simp [hne]

/-- The failures do not depend on what is left alone, if that succeeds. -/
theorem mem_rows_iff_of_isOk
    (hkept : ∀ task ∈ b.tasksAt t found, kept (b.graphOf task) = true → (b.result task).isOk)
    (hkept' : ∀ task ∈ b.tasksAt t found, kept' (b.graphOf task) = true → (b.result task).isOk)
    {r : LogRow} (hr : r.entry.error.isSome) :
    r ∈ (b.unitsAt t found).flatMap (b.rows kept) ↔
      r ∈ (b.unitsAt t found).flatMap (b.rows kept') := by
  simp only [List.mem_flatMap]
  refine exists_congr fun u => and_congr_right fun hu => ?_
  rw [rows, rows]
  cases hcontent : u.content with
  | error e => rfl
  | ok content =>
    simp only [List.mem_flatMap]
    refine exists_congr fun task => and_congr_right fun htask => ?_
    have hmem : task ∈ b.tasksAt t found := List.mem_flatMap.mpr ⟨u, hu, htask⟩
    rw [mem_taskRows_iff (hkept task hmem) _ hr, mem_taskRows_iff (hkept' task hmem) _ hr]

/-- Every function that succeeds is written or skipped, if what is left alone succeeds. -/
theorem written_add_skipped
    (hkept : ∀ task ∈ b.tasksAt t found, kept (b.graphOf task) = true → (b.result task).isOk) :
    (BatchReport.total ((b.unitsAt t found).map (b.report kept))).written +
        (BatchReport.total ((b.unitsAt t found).map (b.report kept))).skipped =
      (b.tasksAt t found).countP fun task => (b.result task).isOk := by
  have hone (task : Task) : (b.taskReport kept task).written + (b.taskReport kept task).skipped =
      if (b.result task).isOk then 1 else 0 := by
    rw [taskReport]
    cases b.result task with
    | error e => rfl
    | ok output => cases kept (b.graphOf task) <;> rfl
  have hadds : BatchReport.Adds fun r => r.written + r.skipped :=
    ⟨rfl, fun _ _ => Nat.add_add_add_comm ..⟩
  have hcount := count_total hadds hkept
  rw [sum_map_eq_countP _ hone] at hcount
  simpa using hcount

/-- Nothing is written, if all that could be is left alone. -/
theorem written_eq_zero
    (hkept : ∀ task ∈ b.tasksAt t found, kept (b.graphOf task) = (b.result task).isOk) :
    (BatchReport.total ((b.unitsAt t found).map (b.report kept))).written = 0 := by
  have hone : ∀ task ∈ b.tasksAt t found, (b.taskReport kept task).written = 0 := by
    intro task htask
    rw [taskReport, hkept task htask]
    cases b.result task <;> rfl
  rw [count_total BatchReport.adds_written fun task htask hk => hkept task htask ▸ hk,
    List.map_congr_left hone]
  simp

end

/-! ### Taking up a run -/

/-- What a run comes to that takes up another one: the files of that one, its failures and its
functions; and it writes nothing if all graphs are there. -/
structure TakesUp (b : Batch) (t : FileTree) (p : Place) (found : List String) (log : ErrorLog)
    (now old : String → Option String) (report : BatchReport) (s : RunState) : Prop where
  same : SameOutside p t s.tree
  contents : ∃ now', s.tree.Contents p now' ∧ ∀ n, n ≠ logName → now' n = now n
  failures : s.log.failures = log.failures
  written_add_skipped : report.written + report.skipped =
    (b.tasksAt t found).countP fun task => (b.result task).isOk
  written_eq_zero : (∀ n ∈ b.namesAt t found, old n = now n) → report.written = 0

/-- A run over a part of the outputs of a finished one takes up the work where it is. -/
theorem Leaves.exists_takesUp {report : BatchReport} {s : RunState} (h : b.Orderly t p found)
    (hskip : b.config.files.skipExisting = true) (hempty : t.Contents p fun _ => none)
    (hs : b.Leaves t p found (fun _ => none) report s) {old now : String → Option String}
    (hnow : b.Directory t found s.log (fun _ => none) now) (hsame : SameOutside p t t')
    (hold : t'.Contents p old)
    (hpart : ∀ n text, old n = some text → n = logName ∨ now n = some text)
    (hschedule : schedule.IsComplete) :
    ∃ report' s', b.run schedule ⟨t', {}⟩ = (.ok report', s') ∧
      b.TakesUp t p found s.log now old report' s' := by
  have h' := h.of_sameOutside hempty hsame hold
  obtain ⟨report', s', hrun, hs'⟩ := h'.exists_run hold hschedule
  obtain ⟨now', hnow', hdirectory⟩ := hs'.exists_directory h'
  have hunits := h.apart.unitsAt_eq hsame
  have hdirectory := hdirectory.of_unitsAt_eq hunits
  have hkept : ∀ task ∈ b.tasksAt t found,
      b.keeps old (b.graphOf task) = true → (b.result task).isOk := fun _ =>
    isOk_of_keeps hskip hnow hpart
  have hreport := hs'.report_eq
  rw [hunits] at hreport
  refine ⟨report', s', hrun, ?_⟩
  exact {
    same := hsame.trans hs'.reaches.same
    contents := ⟨now', hnow', fun n => Directory.eq_of_part hskip hnow hpart hdirectory⟩
    failures := by
      have hlog := hs'.reaches.log
      rw [hunits] at hlog
      refine hlog.failures_eq hs.reaches.log fun r hr => mem_rows_iff_of_isOk hkept ?_ hr
      simp [keeps]
    written_add_skipped := by
      rw [hreport]
      exact written_add_skipped hkept
    written_eq_zero := fun hall => by
      rw [hreport]
      refine written_eq_zero fun task htask => ?_
      rw [keeps_eq hskip, hall _ (graphOf_mem_namesAt htask), hnow.graph task htask, graphAfter,
        keeps_none]
      cases b.result task <;> rfl }

/-- Resuming is running from the start: if the output directory has some of the files that a run
into the empty directory leaves, and maybe a log, a run leaves the same files, lists the same
failures, and writes or skips as many functions as succeed. A further run writes nothing and
changes nothing. -/
theorem run_resumes (h : b.Orderly t p found) (hskip : b.config.files.skipExisting = true)
    (hempty : t.Contents p fun _ => none) {scratch resumed further : Schedule}
    (hscratch : scratch.IsComplete) (hresumed : resumed.IsComplete)
    (hfurther : further.IsComplete) :
    ∃ report s, b.run scratch ⟨t, {}⟩ = (.ok report, s) ∧
      report.written = ((b.tasksAt t found).countP fun task => (b.result task).isOk) ∧
      ∀ t' old, SameOutside p t t' → t'.Contents p old →
        (∀ n text, old n = some text → n = logName ∨ s.tree.entry? (p ++ [n]) = some (.file text)) →
        ∃ report' s', b.run resumed ⟨t', {}⟩ = (.ok report', s') ∧
          SameButLog p s.tree s'.tree ∧ s'.log.failures = s.log.failures ∧
          report'.written + report'.skipped = report.written ∧
          ∃ report'' s'', b.run further ⟨s'.tree, {}⟩ = (.ok report'', s'') ∧
            report''.written = 0 ∧ SameButLog p s'.tree s''.tree := by
  obtain ⟨report, s, hrun, hs⟩ := h.exists_run hempty hscratch
  obtain ⟨now, hcontents, hnow⟩ := hs.exists_directory h
  refine ⟨report, s, hrun, hs.written_eq, fun t' old hsame hold hpart => ?_⟩
  have hpart' : ∀ n text, old n = some text → n = logName ∨ now n = some text := by
    intro n text htext
    refine (hpart n text htext).imp_right fun hentry => ?_
    rw [hcontents.entry?_eq] at hentry
    simpa using hentry
  obtain ⟨report', s', hrun', hs'⟩ :=
    hs.exists_takesUp h hskip hempty hnow hsame hold hpart' hresumed
  obtain ⟨now', hcontents', hnow'⟩ := hs'.contents
  obtain ⟨report'', s'', hrun'', hs''⟩ :=
    hs.exists_takesUp h hskip hempty hnow hs'.same hcontents'
      (fun n text htext => or_iff_not_imp_left.mpr fun hn => hnow' n hn ▸ htext) hfurther
  obtain ⟨now'', hcontents'', hnow''⟩ := hs''.contents
  have hsame' := hs.reaches.same.symm.trans hs'.same
  refine ⟨report', s', hrun', fun q => hcontents.entry?_congr hcontents' hsame' hnow', hs'.failures,
    hs'.written_add_skipped.trans hs.written_eq.symm, report'', s'', hrun'', ?_, ?_⟩
  · refine hs''.written_eq_zero fun n hn => hnow' n fun heq => ?_
    exact logName_notMem_namesAt (heq ▸ hn)
  · refine fun q => hcontents'.entry?_congr hcontents'' (hs'.same.symm.trans hs''.same)
      fun n hn => ?_
    rw [hnow'' n hn, hnow' n hn]

end Batch

/-- Here the canonical functions have got lost, and come back. -/
theorem run_resumes_of_mixedUnits :
    (mixedRun.Orderly mixedUnits ["out"] mixedSummaries ∧
      mixedRun.config.files.skipExisting = true ∧ mixedUnits.Contents ["out"] fun _ => none) ∧
    ∃ report s, mixedRun.run .inOrder ⟨mixedUnits, {}⟩ = (.ok report, s) ∧ report.written = 1 ∧
      ∃ report' s',
        mixedRun.run .inOrder ⟨s.tree.erase ["out", "u_canonical.json"], {}⟩ = (.ok report', s') ∧
          Batch.SameButLog ["out"] s.tree s'.tree ∧ s'.log.failures = s.log.failures ∧
          report'.written + report'.skipped = 1 := by
  have hcomplete := Schedule.isComplete_inOrder
  obtain ⟨report, s, hrun, hwritten, hresume⟩ := Batch.run_resumes orderly_mixedRun rfl
    contents_mixed hcomplete hcomplete hcomplete
  have hone : report.written = 1 := hwritten.trans (countP_mixed id)
  obtain ⟨report₀, s₀, hrun₀, hleaves⟩ := orderly_mixedRun.exists_run contents_mixed hcomplete
  obtain ⟨rfl, rfl⟩ : report = report₀ ∧ s = s₀ := by simpa [hrun] using hrun₀
  obtain ⟨now, hnow, -⟩ := hleaves.exists_directory orderly_mixedRun
  obtain ⟨report', s', hrun', hsame, hfailures, hcount, -⟩ := hresume _ _
    (hleaves.reaches.same.trans (FileTree.sameOutside_erase s.tree ["out"] "u_canonical.json"))
    (hnow.erase "u_canonical.json") fun n text htext => by
      refine .inr ((hnow.entry?_eq n).trans ?_)
      by_cases hn : n = "u_canonical.json"
      · simp [hn] at htext
      · rw [Function.update_of_ne hn] at htext
        rw [htext, Option.map_some]
  exact ⟨⟨orderly_mixedRun, rfl, contents_mixed⟩, report, s, hrun, hone, report', s', hrun', hsame,
    hfailures, hcount.trans hone⟩

/-! ### A graph that is lost and comes back -/

/-- What the first run over the lossy units leaves. -/
def lossyOnce : FileTree := (lossyRun.runFound .inOrder ⟨lossyUnits, {}⟩ lossySummaries).2.tree

/-- What is computed of it: the same summary is found, and a run over it writes the graph that has
been gone. -/
theorem computed_lossyOnce :
    lossyOnce.ListsInOrder "summaries" lossyRun.config.files.summarySuffix ["summaries"]
      lossySummaries ∧
    (lossyRun.runFound .inOrder ⟨lossyOnce, {}⟩ lossySummaries).1 =
      .ok { units := 1, functions := 2, written := 1, skipped := 1 } ∧
    (lossyRun.runFound .inOrder ⟨lossyOnce, {}⟩ lossySummaries).2.tree.leadsSomewhere
      (graphPath "out" "u" "f.json" lossyRun.config.files) = true := by
  decide +kernel

/-- It is not enough for resuming that the outputs have different names and can be saved: here a
second run over the same files writes a graph once more, which the first one has lost. -/
theorem graph_rewritten_of_temporary :
    lossyRun.config.files.skipExisting = true ∧
      lossyRun.Separate lossyUnits ["out"] lossySummaries ∧
      (lossyUnits.Contents ["out"] fun _ => none) ∧
      ∃ s, (lossyRun.run .inOrder ⟨lossyUnits, {}⟩).2 = s ∧
        s.tree.find (graphPath "out" "u" "f.json" lossyRun.config.files) = .error .notFound ∧
        (lossyRun.run .inOrder ⟨s.tree, {}⟩).1 =
          .ok { units := 1, functions := 2, written := 1, skipped := 1 } ∧
        (lossyRun.run .inOrder ⟨s.tree, {}⟩).2.tree.leadsSomewhere
          (graphPath "out" "u" "f.json" lossyRun.config.files) = true := by
  have hfirst : (lossyRun.run .inOrder ⟨lossyUnits, {}⟩).2.tree = lossyOnce := by
    rw [Batch.run_eq_runFound separate_lossyRun.discovered, lossyOnce]
  obtain ⟨hlists, hreport, hback⟩ := computed_lossyOnce
  have hsecond : lossyRun.run .inOrder ⟨lossyOnce, {}⟩ =
      lossyRun.runFound .inOrder ⟨lossyOnce, {}⟩ lossySummaries :=
    Batch.run_eq_runFound hlists.unitsBelow_eq
  refine ⟨rfl, separate_lossyRun, checkedLossy.checks.contents, _, rfl, ?_⟩
  rw [hfirst, hsecond]
  exact ⟨computed_lossy.2, hreport, hback⟩

end InstrGraph

import InstrGraph.Proofs.Batch.Fresh
import Mathlib.Data.List.Dedup

/-!
# The failures of a run

Every failure of a run is counted, and is written to the log under its key: that of a function, or
that of a whole unit if the unit does not load or its canonical functions cannot be written.
`Batch.failures` lists the failures with their keys, in the order of the work.

A function adds its failure to the report and to the log (`runFunction_spec`), so does a unit
(`Logged.runUnit`, `failed_runUnit`), and hence a run. As the log has one entry for each key, which
holds the last failure, it has as many of them as there are different keys (`run_failures`).
-/

namespace InstrGraph

open ErrorLog (entryAt)

/-! ### What is gathered along a pass -/

section Gather

variable {α β γ σ : Type} {f : σ → α → β × σ} {g : σ → α → List γ}

/-- What the steps of a pass come to, in the order of the work. -/
def gather (f : σ → α → β × σ) (g : σ → α → List γ) : σ → List α → List γ
  | _, [] => []
  | s, a :: as => g s a ++ gather f g (f s a).2 as

/-- What holds of the state and of what has come together is preserved if each step preserves it. -/
theorem gather_spec {I : List γ → σ → Prop}
    (step : ∀ done s a, I done s → I (done ++ g s a) (f s a).2) {done : List γ} {s : σ}
    (items : List α) (h : I done s) : I (done ++ gather f g s items) (mapCarry f s items).2 := by
  induction items generalizing done s with
  | nil => simpa [gather, mapCarry] using h
  | cons a items ih =>
    have hrest := ih (step done s a h)
    rw [List.append_assoc] at hrest
    exact hrest

/-- Numbers that count what each step brings add up to how much comes together. -/
theorem length_gather {count : β → Nat} (step : ∀ s a, count (f s a).1 = (g s a).length)
    (s : σ) (items : List α) :
    ((mapCarry f s items).1.map count).sum = (gather f g s items).length := by
  induction items generalizing s with
  | nil => rfl
  | cons a items ih =>
    show (count (f s a).1 :: (mapCarry f (f s a).2 items).1.map count).sum = _
    rw [List.sum_cons, step, ih, gather, List.length_append]

end Gather

/-! ### Failures in the log -/

/-- The last failure under a key. -/
def lastFailure (fails : List (LogKey × Error)) (key : LogKey) : Option Failure :=
  (fails.filter fun x => x.1 = key).getLast?.map fun x => .ofError x.2

section LastFailure

variable {fails : List (LogKey × Error)} {key key' : LogKey} {e : Error}

/-- A failure under a key is the last one of it. -/
theorem lastFailure_concat (fails : List (LogKey × Error)) (key key' : LogKey) (e : Error) :
    lastFailure (fails ++ [(key, e)]) key' =
      if key' = key then some (.ofError e) else lastFailure fails key' := by
  rw [lastFailure, List.filter_append]
  by_cases h : key' = key
  · simp [h]
  · simp [h, Ne.symm h, lastFailure]

/-- There is a last failure under the keys of failures. -/
theorem isSome_lastFailure_iff : (lastFailure fails key).isSome ↔ key ∈ fails.map Prod.fst := by
  rw [lastFailure, Option.isSome_map, List.getLast?_isSome, Ne, List.filter_eq_nil_iff]
  simp

/-- If no key has two failures, the last one of a key is the only one. -/
theorem lastFailure_of_nodup (hnodup : (fails.map Prod.fst).Nodup) (h : (key, e) ∈ fails) :
    lastFailure fails key = some (.ofError e) := by
  have hall : ∀ x ∈ fails.filter fun x => x.1 = key, x = (key, e) := by
    intro x hx
    obtain ⟨hx, hkey⟩ := List.mem_filter.mp hx
    exact List.inj_on_of_nodup_map hnodup hx h (by simpa using hkey)
  obtain ⟨x, hx⟩ := Option.isSome_iff_exists.mp
    (isSome_lastFailure_iff.mpr (List.mem_map_of_mem h))
  rw [hx]
  rw [lastFailure] at hx
  obtain ⟨y, hy, rfl⟩ := Option.map_eq_some_iff.mp hx
  rw [hall y (List.mem_of_getLast? hy)]

end LastFailure

/-- The log has the last failure of every key. -/
structure Logged (fails : List (LogKey × Error)) (l : ErrorLog) : Prop where
  sorted : ErrorLog.IsSorted l.rows
  error_eq : ∀ key, (entryAt l.rows key).error = lastFailure fails key

namespace Logged

variable {fails : List (LogKey × Error)} {l : ErrorLog}

/-- Without failures the log is empty. -/
theorem empty : Logged [] {} := ⟨.nil, fun _ => rfl⟩

variable (h : Logged fails l)

include h

/-- Warnings do not touch the failures. -/
theorem recordWarnings (key : LogKey) (ds : List Diagnostic) :
    Logged fails (l.recordWarnings key ds) := by
  rw [ErrorLog.recordWarnings]
  split
  · exact h
  · refine ⟨ErrorLog.isSorted_updateRows h.sorted, fun key' => ?_⟩
    rw [ErrorLog.entryAt_updateRows h.sorted, ← h.error_eq]
    split
    · rename_i hkey
      rw [hkey]
    · rfl

/-- A failure becomes the last one of its key. -/
theorem recordFailure (key : LogKey) (e : Error) :
    Logged (fails ++ [(key, e)]) (l.recordFailure key e) := by
  refine ⟨ErrorLog.isSorted_updateRows h.sorted, fun key' => ?_⟩
  rw [ErrorLog.recordFailure, ErrorLog.entryAt_updateRows h.sorted, lastFailure_concat,
    ← h.error_eq]
  split <;> rfl

/-- Failures become the last ones of their keys, one after the other. -/
theorem recordAll (more : List (LogKey × Error)) :
    Logged (fails ++ more) (l.recordAll (more.map fun x => .failure x.1 x.2)) := by
  induction more generalizing fails l with
  | nil => simpa [ErrorLog.recordAll] using h
  | cons x more ih =>
    have hrest := ih (h.recordFailure x.1 x.2)
    rw [List.append_assoc] at hrest
    exact hrest

/-- The last failure of a key is in a row of the log. -/
theorem exists_row {key : LogKey} {failure : Failure}
    (hlast : lastFailure fails key = some failure) :
    ∃ r ∈ l.rows, r.key = key ∧ r.entry.error = some failure :=
  ErrorLog.exists_mem_of_entryAt_error ((h.error_eq key).trans hlast)

/-- There are as many failures in the log as there are different keys of failures. -/
theorem failureCount_eq : l.failureCount = (fails.map Prod.fst).dedup.length := by
  have hnodup : ((l.rows.filter fun r => r.entry.error.isSome).map LogRow.key).Nodup :=
    h.sorted.nodup_keys.sublist (List.filter_sublist.map _)
  have hperm : ((l.rows.filter fun r => r.entry.error.isSome).map LogRow.key).Perm
      (fails.map Prod.fst).dedup := by
    refine (List.perm_ext_iff_of_nodup hnodup (List.nodup_dedup _)).mpr fun key => ?_
    rw [List.mem_dedup, ← isSome_lastFailure_iff]
    constructor
    · intro hkey
      obtain ⟨r, hr, rfl⟩ := List.mem_map.mp hkey
      obtain ⟨hr, herror⟩ := List.mem_filter.mp hr
      rwa [← h.error_eq, h.sorted.entryAt_key hr]
    · intro hsome
      obtain ⟨failure, hlast⟩ := Option.isSome_iff_exists.mp hsome
      obtain ⟨r, hr, rfl, herror⟩ := h.exists_row hlast
      exact List.mem_map_of_mem (List.mem_filter.mpr ⟨hr, by simp [herror]⟩)
  rw [← hperm.length_eq, List.length_map, ErrorLog.failureCount]

end Logged

/-! ### Failures of a run -/

namespace Batch

variable {b : Batch} {schedule : Schedule} {stem summary : String} {metadata : Metadata}
  {want : Bool} {s : RunState} {fails : List (LogKey × Error)}

/-- Why the work on a function fails, if it does: no graph can be made, or it cannot be saved. -/
def functionError? (b : Batch) (stem : String) (metadata : Metadata) (want : Bool) (s : RunState)
    (f : Function) : Option Error :=
  let path := graphPath b.inputs.outDir stem f.name b.config.files
  let isKept := b.isKept s.tree path
  if isKept && !want then none
  else
    match processFunction f metadata b.frequency b.config with
    | .error e => some e
    | .ok output =>
      if isKept then none
      else
        match (s.tree.save path (b.textOf output.document.toJson)).1 with
        | .ok () => none
        | .error e => some e

/-- The failure of a function. -/
def functionFailures (b : Batch) (stem : String) (metadata : Metadata) (want : Bool) (s : RunState)
    (f : Function) : List (LogKey × Error) :=
  (b.functionError? stem metadata want s f).toList.map fun e => (⟨stem, f.name⟩, e)

/-- The failure to write the canonical functions of a unit. -/
def canonicalFailures (b : Batch) (stem : String) (s : RunState)
    (canonical : List CanonicalFunction) : List (LogKey × Error) :=
  if canonical.isEmpty then []
  else
    match (s.tree.save (canonicalPath b.inputs.outDir stem)
      (b.textOf (.array (canonical.map CanonicalFunction.toJson)))).1 with
    | .ok () => []
    | .error e => [(.wholeUnit stem, e)]

/-- The failures of a unit: that to load, or those of its functions and of the file of its canonical
functions. -/
def unitFailures (b : Batch) (schedule : Schedule) (s : RunState) (summary : String) :
    List (LogKey × Error) :=
  match b.unit? s.tree summary with
  | none => []
  | some u =>
    match u.content with
    | .error e => [(.wholeUnit u.stem, e)]
    | .ok (functions, metadata) =>
      let want := b.config.files.writeCanonical &&
        !b.isKept s.tree (canonicalPath b.inputs.outDir u.stem)
      let order := schedule.functions summary functions.length
      let worked := mapCarryIn order (b.runFunction u.stem metadata want) s functions
      gather (b.runFunction u.stem metadata want) (b.functionFailures u.stem metadata want) s
          (workedOn order functions) ++
        b.canonicalFailures u.stem worked.2 (worked.1.filterMap FunctionOutcome.canonical?)

/-- What is no unit has no failures. -/
theorem unitFailures_of_none (h : b.unit? s.tree summary = none) :
    b.unitFailures schedule s summary = [] := by
  rw [unitFailures, h]

/-- A unit that cannot be loaded has one failure, that of the whole unit. -/
theorem unitFailures_of_error {u : LoadedUnit} {e : Error} (h : b.unit? s.tree summary = some u)
    (hu : u.content = .error e) :
    b.unitFailures schedule s summary = [(.wholeUnit u.stem, e)] := by
  rw [unitFailures, h]
  dsimp only
  rw [hu]

/-- A unit that is loaded has the failures of its functions and that of the file of its canonical
functions. -/
theorem unitFailures_of_ok {u : LoadedUnit} {functions : List Function}
    (h : b.unit? s.tree summary = some u) (hu : u.content = .ok (functions, metadata)) :
    b.unitFailures schedule s summary =
      let want := b.config.files.writeCanonical &&
        !b.isKept s.tree (canonicalPath b.inputs.outDir u.stem)
      let order := schedule.functions summary functions.length
      let worked := mapCarryIn order (b.runFunction u.stem metadata want) s functions
      gather (b.runFunction u.stem metadata want) (b.functionFailures u.stem metadata want) s
          (workedOn order functions) ++
        b.canonicalFailures u.stem worked.2
          (worked.1.filterMap FunctionOutcome.canonical?) := by
  rw [unitFailures, h]
  dsimp only
  rw [hu]

/-- The failures of a run that begins with an empty log. -/
def failures (b : Batch) (schedule : Schedule) (t : FileTree) : List (LogKey × Error) :=
  match t.unitsBelow b.inputs.summaries b.config.files.summarySuffix with
  | .error _ => []
  | .ok found =>
    gather (b.runUnit schedule) (b.unitFailures schedule) ⟨t, {}⟩
      (workedOn (schedule.units found.length) found)

/-- A function adds its failure to the report, and to the log behind its warnings. -/
theorem runFunction_spec (b : Batch) (stem : String) (metadata : Metadata) (want : Bool)
    (s : RunState) (f : Function) :
    (b.runFunction stem metadata want s f).1.report.failed =
        (b.functionFailures stem metadata want s f).length ∧
      ∃ ds, (b.runFunction stem metadata want s f).2.log =
        (s.log.recordWarnings ⟨stem, f.name⟩ ds).recordAll
          ((b.functionFailures stem metadata want s f).map fun x => .failure x.1 x.2) := by
  rw [functionFailures, functionError?, runFunction]
  dsimp only
  split
  · exact ⟨rfl, [], rfl⟩
  · cases processFunction f metadata b.frequency b.config with
    | error e => exact ⟨rfl, [], rfl⟩
    | ok output =>
      dsimp only
      split
      · exact ⟨rfl, [], rfl⟩
      · cases s.tree.save (graphPath b.inputs.outDir stem f.name b.config.files)
          (b.textOf output.document.toJson) with
        | mk result tree =>
          cases result with
          | error e => exact ⟨rfl, output.diagnostics, rfl⟩
          | ok u => exact ⟨rfl, output.diagnostics, rfl⟩

/-- So does the file of the canonical functions of a unit. -/
theorem saveCanonical_spec (b : Batch) (stem : String) (s : RunState)
    (canonical : List CanonicalFunction) :
    (b.saveCanonical stem s canonical).1.failed =
        (b.canonicalFailures stem s canonical).length ∧
      (b.saveCanonical stem s canonical).2.log =
        s.log.recordAll
          ((b.canonicalFailures stem s canonical).map fun x => .failure x.1 x.2) := by
  rw [canonicalFailures, saveCanonical]
  split
  · exact ⟨rfl, rfl⟩
  · dsimp only
    cases s.tree.save (canonicalPath b.inputs.outDir stem)
      (b.textOf (.array (canonical.map CanonicalFunction.toJson))) with
    | mk result tree =>
      cases result with
      | error e => exact ⟨rfl, rfl⟩
      | ok u => exact ⟨rfl, rfl⟩

/-- A unit adds its failures to the report. -/
theorem failed_runUnit (hschedule : schedule.IsComplete) (s : RunState) (summary : String) :
    (b.runUnit schedule s summary).1.failed = (b.unitFailures schedule s summary).length := by
  cases hu : b.unit? s.tree summary with
  | none => rw [runUnit_of_none hu, unitFailures_of_none hu, List.length_nil]
  | some u =>
    cases hcontent : u.content with
    | error e => rw [runUnit_of_error hu hcontent, unitFailures_of_error hu hcontent,
        List.length_singleton]
    | ok content =>
      obtain ⟨functions, metadata⟩ := content
      rw [runUnit_of_ok hu hcontent, unitFailures_of_ok hu hcontent]
      dsimp only
      generalize (b.config.files.writeCanonical &&
        !b.isKept s.tree (canonicalPath b.inputs.outDir u.stem)) = want
      have horder := hschedule.functions summary functions.length
      have hworked : (BatchReport.total ((mapCarryIn (schedule.functions summary functions.length)
          (b.runFunction u.stem metadata want) s functions).1.map FunctionOutcome.report)).failed =
          (gather (b.runFunction u.stem metadata want)
            (b.functionFailures u.stem metadata want) s
            (workedOn (schedule.functions summary functions.length) functions)).length := by
        have hperm := (fst_mapCarryIn_perm horder (b.runFunction u.stem metadata want) s).map
          (BatchReport.failed ∘ FunctionOutcome.report)
        rw [BatchReport.adds_failed.sum, List.map_map, hperm.sum_eq]
        exact length_gather (fun s f => (b.runFunction_spec u.stem metadata want s f).1) _ _
      rw [BatchReport.adds_failed.add, BatchReport.adds_failed.add, hworked,
        (b.saveCanonical_spec _ _ _).1, List.length_append]
      exact Nat.zero_add _

end Batch

namespace Logged

variable {b : Batch} {schedule : Schedule} {s : RunState} {fails : List (LogKey × Error)}

/-- The work on a function. -/
theorem runFunction (h : Logged fails s.log) (stem : String) (metadata : Metadata) (want : Bool)
    (f : Function) : Logged (fails ++ b.functionFailures stem metadata want s f)
      (b.runFunction stem metadata want s f).2.log := by
  obtain ⟨-, ds, hlog⟩ := b.runFunction_spec stem metadata want s f
  rw [hlog]
  exact (h.recordWarnings _ ds).recordAll _

/-- The work on a unit. -/
theorem runUnit (h : Logged fails s.log) (summary : String) :
    Logged (fails ++ b.unitFailures schedule s summary) (b.runUnit schedule s summary).2.log := by
  cases hu : b.unit? s.tree summary with
  | none =>
    rw [Batch.runUnit_of_none hu, Batch.unitFailures_of_none hu, List.append_nil]
    exact h
  | some u =>
    cases hcontent : u.content with
    | error e =>
      rw [Batch.runUnit_of_error hu hcontent, Batch.unitFailures_of_error hu hcontent]
      exact h.recordFailure _ e
    | ok content =>
      obtain ⟨functions, metadata⟩ := content
      rw [Batch.runUnit_of_ok hu hcontent, Batch.unitFailures_of_ok hu hcontent]
      dsimp only
      rw [(b.saveCanonical_spec _ _ _).2, ← List.append_assoc]
      refine Logged.recordAll ?_ _
      rw [snd_mapCarryIn]
      exact gather_spec (I := fun fails (s : RunState) => Logged fails s.log)
        (fun done s f hs => hs.runFunction u.stem metadata _ f) _ h

end Logged

namespace Batch

variable {b : Batch} {schedule : Schedule} {t : FileTree} {report : BatchReport} {s : RunState}

/-- The failures of a run are those of its units, in the order of the work. -/
theorem failures_eq {found : List String}
    (hfound : t.unitsBelow b.inputs.summaries b.config.files.summarySuffix = .ok found) :
    b.failures schedule t = gather (b.runUnit schedule) (b.unitFailures schedule) ⟨t, {}⟩
      (workedOn (schedule.units found.length) found) := by
  rw [failures, hfound]

/-- A run that comes to its end has worked on all units that were found, and written the log. -/
theorem run_eq_ok {s₀ : RunState} (h : b.run schedule s₀ = (.ok report, s)) : ∃ found,
    s₀.tree.unitsBelow b.inputs.summaries b.config.files.summarySuffix = .ok found ∧
      report = .total (mapCarryIn (schedule.units found.length) (b.runUnit schedule) s₀ found).1 ∧
      s.log = (mapCarryIn (schedule.units found.length) (b.runUnit schedule) s₀ found).2.log ∧
      s.tree.read (errorsPath b.inputs.outDir) = .ok s.log.toJson.pretty := by
  rw [run] at h
  split at h
  · cases h
  rename_i found hfound
  refine ⟨found, hfound, ?_⟩
  generalize mapCarryIn (schedule.units found.length) (b.runUnit schedule) s₀ found = worked at h ⊢
  obtain ⟨reports, s₁⟩ := worked
  dsimp only [saveLog] at h ⊢
  cases hsave : s₁.tree.save (errorsPath b.inputs.outDir) s₁.log.toJson.pretty with
  | mk result tree =>
    rw [hsave] at h
    cases result with
    | error e => cases h
    | ok u =>
      cases h
      exact ⟨rfl, rfl, FileTree.read_of_save hsave⟩

/-- What a run that begins with an empty log says of its failures. Each is counted in the report.
The log has the last failure of every key that has one, and nothing else, so it has as many as there
are different keys: no failure is missing just if no two failures have the same key. The log is the
text of its file. -/
theorem run_failures (hschedule : schedule.IsComplete)
    (h : b.run schedule ⟨t, {}⟩ = (.ok report, s)) :
    let fails := b.failures schedule t
    report.failed = fails.length ∧
      s.log.failureCount = (fails.map Prod.fst).dedup.length ∧
      (report.failed = s.log.failureCount ↔ (fails.map Prod.fst).Nodup) ∧
      (∀ key, (entryAt s.log.rows key).error = lastFailure fails key) ∧
      ((fails.map Prod.fst).Nodup → ∀ x ∈ fails,
        ∃ r ∈ s.log.rows, r.key = x.1 ∧ r.entry.error = some (.ofError x.2)) ∧
      s.tree.read (errorsPath b.inputs.outDir) = .ok s.log.toJson.pretty := by
  intro fails
  obtain ⟨found, hfound, hreport, hlog, hread⟩ := run_eq_ok h
  have hfails : fails = gather (b.runUnit schedule) (b.unitFailures schedule) ⟨t, {}⟩
      (workedOn (schedule.units found.length) found) := failures_eq hfound
  have hfailed : report.failed = fails.length := by
    have hperm := (fst_mapCarryIn_perm (hschedule.units found.length) (b.runUnit schedule)
      ⟨t, {}⟩).map BatchReport.failed
    rw [hreport, BatchReport.adds_failed.sum, hfails, hperm.sum_eq]
    exact length_gather (fun s summary => failed_runUnit hschedule s summary) _ _
  have hlogged : Logged fails s.log := by
    rw [hlog, snd_mapCarryIn, hfails]
    have hstart : Logged [] (⟨t, {}⟩ : RunState).log := Logged.empty
    exact gather_spec (I := fun fails (s : RunState) => Logged fails s.log)
      (fun _ _ summary hs => Logged.runUnit hs summary) _ hstart
  refine ⟨hfailed, hlogged.failureCount_eq, ?_, hlogged.error_eq, fun hnodup x hx => ?_, hread⟩
  · rw [hfailed, hlogged.failureCount_eq]
    constructor
    · intro heq
      have hall : (fails.map Prod.fst).dedup = fails.map Prod.fst :=
        (List.dedup_sublist _).eq_of_length (by rw [List.length_map, heq])
      exact List.dedup_eq_self.mp hall
    · intro hnodup
      rw [hnodup.dedup, List.length_map]
  · exact hlogged.exists_row (lastFailure_of_nodup hnodup hx)

end Batch

/-- What is computed of the run over mixed units: both failures are counted, and both are in the
log. -/
theorem computed_mixedFailures :
    (mixedRun.runFound .inOrder ⟨mixedUnits, {}⟩ mixedSummaries).1 =
        .ok { units := 2, functions := 2, written := 1, failed := 2 } ∧
      (mixedRun.runFound .inOrder ⟨mixedUnits, {}⟩ mixedSummaries).2.log.failureCount = 2 := by
  decide +kernel

/-- The failures of a function and of a unit have different keys, so each has its row. -/
theorem run_failures_of_mixedUnits :
    ∃ report s, mixedRun.run .inOrder ⟨mixedUnits, {}⟩ = (.ok report, s) ∧
      (mixedRun.failures .inOrder mixedUnits).length = 2 ∧
      (∀ x ∈ mixedRun.failures .inOrder mixedUnits,
        ∃ r ∈ s.log.rows, r.key = x.1 ∧ r.entry.error = some (.ofError x.2)) ∧
      s.tree.read (errorsPath mixedRun.inputs.outDir) = .ok s.log.toJson.pretty := by
  have hrun : mixedRun.run .inOrder ⟨mixedUnits, {}⟩ =
      (.ok { units := 2, functions := 2, written := 1, failed := 2 },
        (mixedRun.runFound .inOrder ⟨mixedUnits, {}⟩ mixedSummaries).2) := by
    rw [Batch.run_eq_runFound orderly_mixedRun.discovered, ← computed_mixedFailures.1]
  obtain ⟨hfailed, -, hiff, -, hrows, hread⟩ :=
    Batch.run_failures Schedule.isComplete_inOrder hrun
  have hnodup := hiff.mp computed_mixedFailures.2.symm
  exact ⟨_, _, hrun, hfailed.symm, hrows hnodup, hread⟩

/-! ### Two failures under one key -/

/-- A unit with two functions of one name, which both fail. -/
def twinUnits : FileTree where
  entries :=
    [(["out"], .directory),
      (["summaries"], .directory),
      (["summaries", "u_info_summary.json"],
        .file "[[\"g\",[],[[\"0\",[[1,\"br\",\"br\"]]]]],[\"g\",[],[[\"0\",[[2,\"br\",\"br\"]]]]]]")]

/-- Both failures are counted, but the log has the second one only. -/
theorem failure_lost_of_twinUnits :
    ({} : Config).validate = .ok () ∧
      ∃ report s, mixedRun.run .inOrder ⟨twinUnits, {}⟩ = (.ok report, s) ∧
        report.failed = 2 ∧ s.log.failureCount = 1 ∧
        s.log.rows.map (fun r => (r.key, r.entry.error.map Failure.message)) =
          [(⟨"u", "g"⟩, some "Malformed instruction #2 in 'g': br without targets (`br`)")] := by
  have hcomputed : ({} : Config).validate = .ok () ∧
      twinUnits.ListsInOrder "summaries" "_info_summary.json" ["summaries"]
        ["summaries/u_info_summary.json"] ∧
      (mixedRun.runFound .inOrder ⟨twinUnits, {}⟩ ["summaries/u_info_summary.json"]).1 =
        .ok { units := 1, functions := 2, failed := 2 } ∧
      (mixedRun.runFound .inOrder ⟨twinUnits, {}⟩
        ["summaries/u_info_summary.json"]).2.log.failureCount = 1 ∧
      (mixedRun.runFound .inOrder ⟨twinUnits, {}⟩
        ["summaries/u_info_summary.json"]).2.log.rows.map
          (fun r => (r.key, r.entry.error.map Failure.message)) =
        [(⟨"u", "g"⟩, some "Malformed instruction #2 in 'g': br without targets (`br`)")] := by
    decide +kernel
  obtain ⟨hvalid, hlists, hreport, hcount, hrows⟩ := hcomputed
  refine ⟨hvalid, { units := 1, functions := 2, failed := 2 }, _, ?_, rfl, hcount, hrows⟩
  rw [Batch.run_eq_runFound hlists.unitsBelow_eq, ← hreport]

end InstrGraph

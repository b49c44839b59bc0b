import InstrGraph.Proofs.Batch.Fresh
import InstrGraph.Proofs.Batch.Retain

/-!
# The canonical functions over many runs

The canonical functions of a unit are one file. A run that does not find it writes it anew, from all
functions of the unit as it is then (`Batch.Records.run`). A run that finds it leaves it alone as a
whole, whatever has become of the unit, and so do all further ones: `canonical_of_history` says both
of any sequence of runs with edits in between.

So the file need not keep up with the graphs: of a function that fails at first and is repaired
later, there is a graph in the end, but no canonical function (`canonical_lags_behind`).
-/

namespace InstrGraph

open FileTree (Contents HasDirectory IsUsable SameOutside temporaryName)
open InstrGraph.Path (IsName join)

namespace Batch

variable {b : Batch} {t : FileTree} {p : Place} {found : List String} {summary : String}
  {u : LoadedUnit} {schedule : Schedule}

/-- A run has a unit to record: it finds its summary, it can save what comes of it, and no other
unit may write to the file of its canonical functions. -/
structure Records (b : Batch) (t : FileTree) (p : Place) (found : List String) (summary : String)
    (u : LoadedUnit) : Prop where
  valid : b.config.validate = .ok ()
  write : b.config.files.writeCanonical = true
  discovered : t.unitsBelow b.inputs.summaries b.config.files.summarySuffix = .ok found
  output : t.HasDirectory b.inputs.outDir p
  apart : b.IsApart t p found
  mem : summary ∈ found
  unit : b.unit? t summary = some u
  graphs : ∀ task ∈ u.tasks, (b.result task).isOk →
    t.CanSave (join b.inputs.outDir (b.graphOf task))
  canonical : b.canonicalForms u ≠ [] → t.CanSave (join b.inputs.outDir (canonicalName u.stem))
  others : ∀ other ∈ found.erase summary, ∀ v ∈ b.unit? t other, canonicalName u.stem ∉ b.names v

/-- A function that succeeds has its canonical function. -/
theorem canonicalForms_ne_nil {task : Task} (htask : task ∈ u.tasks)
    (hok : (b.result task).isOk = true) : b.canonicalForms u ≠ [] := by
  cases hr : b.result task with
  | error e => simp [hr, Except.isOk, Except.toBool] at hok
  | ok output =>
    exact List.ne_nil_of_mem (List.mem_filterMap.mpr ⟨task, htask, by rw [hr]; rfl⟩)

/-! ### The work on the unit -/

section

variable {s : RunState} {now : String → Option String} (hnow : s.tree.Contents p now)
  (hdir : s.tree.HasDirectory b.inputs.outDir p)

include hnow hdir

/-- A function for which a canonical function is wanted has it if it succeeds, whether its graph is
left alone or written. If it fails, no file is touched. -/
theorem runFunction_records (task : Task) (hname : IsName (b.graphOf task))
    (hsave : (b.result task).isOk → s.tree.CanSave (join b.inputs.outDir (b.graphOf task))) :
    (b.runFunction task.stem task.metadata true s task.function).1.canonical? =
        (b.result task).toOption.map Output.canonical ∧
      SameOutside p s.tree (b.runFunction task.stem task.metadata true s task.function).2.tree ∧
      ∃ now', (b.runFunction task.stem task.metadata true s task.function).2.tree.Contents p now' ∧
        ((b.result task).isOk = false → now' = now) := by
  simp only [runFunction, b.graphPath_task, b.processFunction_task, Bool.not_true, Bool.and_false,
    Bool.false_eq_true, if_false]
  cases hr : b.result task with
  | error e => exact ⟨rfl, SameOutside.refl .., now, hnow, fun _ => rfl⟩
  | ok output =>
    cases hk : b.isKept s.tree (join b.inputs.outDir (b.graphOf task)) with
    | true => exact ⟨rfl, SameOutside.refl .., now, hnow, fun _ => rfl⟩
    | false =>
      simp only [Bool.false_eq_true, if_false,
        hdir.save_join_of_canSave hname (hsave (by rw [hr]; rfl))]
      exact ⟨rfl, FileTree.sameOutside_saved, _, hnow.saved _ _, fun h => by cases h⟩

/-- The canonical functions are saved, if there are any. -/
theorem saveCanonical_records {forms : List CanonicalFunction}
    (hname : IsName (canonicalName u.stem))
    (hsave : forms ≠ [] → s.tree.CanSave (join b.inputs.outDir (canonicalName u.stem))) :
    SameOutside p s.tree (b.saveCanonical u.stem s forms).2.tree ∧
      ∃ now', (b.saveCanonical u.stem s forms).2.tree.Contents p now' ∧
        now' (canonicalName u.stem) = if forms.isEmpty then now (canonicalName u.stem)
          else some (b.textOf (.array (forms.map CanonicalFunction.toJson))) := by
  rw [saveCanonical]
  cases forms with
  | nil => exact ⟨SameOutside.refl .., now, hnow, rfl⟩
  | cons form forms =>
    have hsave := hdir.save_join_of_canSave hname (hsave (List.cons_ne_nil form forms))
    simp only [List.isEmpty_cons, Bool.false_eq_true, if_false, canonicalPath_eq_join, hsave]
    exact ⟨FileTree.sameOutside_saved, _, hnow.saved _ _, Function.update_self ..⟩

end

/-- Where the work on a unit has come to while nothing has been recorded of it: the file of its
canonical functions can only be there if a function that succeeds has been written to it. -/
def Unrecorded (b : Batch) (t : FileTree) (p : Place) (u : LoadedUnit) (done : List Task)
    (s : RunState) : Prop :=
  SameOutside p t s.tree ∧ ∃ now, s.tree.Contents p now ∧
    (now (canonicalName u.stem) = none ∨ ∃ task ∈ done, (b.result task).isOk)

/-- Where a run has come to: the canonical functions of the unit are there once its summary has come
up. -/
def Recorded (b : Batch) (t : FileTree) (p : Place) (summary : String) (u : LoadedUnit)
    (done : List String) (s : RunState) : Prop :=
  SameOutside p t s.tree ∧ ∃ now, s.tree.Contents p now ∧ now (canonicalName u.stem) =
    if summary ∈ done then
      if (b.canonicalForms u).isEmpty then none else some (b.canonicalText u)
    else none

namespace Records

variable (h : b.Records t p found summary u)

include h

/-- The canonical functions of a recorded unit have a name of a file. -/
theorem isName_canonicalName : IsName (canonicalName u.stem) :=
  isName_of_mem_names h.valid h.unit
    (List.mem_append_right _ (by simp [canonicalOf, h.write]))

/-- The work on one more function. -/
theorem runTask {s : RunState} {old : String → Option String} (hold : t.Contents p old)
    {done : List Task} (hs : b.Unrecorded t p u done s) (task : Task) (htask : task ∈ u.tasks) :
    (b.runFunction task.stem task.metadata true s task.function).1.canonical? =
        (b.result task).toOption.map Output.canonical ∧
      b.Unrecorded t p u (done ++ [task])
        (b.runFunction task.stem task.metadata true s task.function).2 := by
  obtain ⟨hsame, now, hnow, hdone⟩ := hs
  have hname : IsName (b.graphOf task) :=
    isName_of_mem_names h.valid h.unit (List.mem_append_left _ (List.mem_map_of_mem htask))
  have hdir := hold.hasDirectory h.output hsame
  obtain ⟨hcanonical, hsame', now', hnow', hfailed⟩ := runFunction_records hnow hdir task hname
    fun hok => hold.canSave_congr h.output hname hnow hdir (h.graphs _ htask hok)
  refine ⟨hcanonical, hsame.trans hsame', now', hnow', ?_⟩
  cases hok : (b.result task).isOk with
  | true => exact .inr ⟨task, by simp, hok⟩
  | false =>
    rw [hfailed hok]
    refine hdone.imp_right ?_
    rintro ⟨other, hother, hok'⟩
    exact ⟨other, List.mem_append_left _ hother, hok'⟩

/-- The work on all functions of the unit yields its canonical functions. -/
theorem runFunctions {s : RunState} {old : String → Option String} (hold : t.Contents p old)
    {functions : List Function} {metadata : Metadata} (hu : u.content = .ok (functions, metadata))
    (hs : b.Unrecorded t p u [] s) {order : List Nat}
    (horder : order.Perm (List.range functions.length)) :
    (mapCarryIn order (b.runFunction u.stem metadata true) s functions).1.filterMap
        FunctionOutcome.canonical? = b.canonicalForms u ∧
      b.Unrecorded t p u u.tasks
        (mapCarryIn order (b.runFunction u.stem metadata true) s functions).2 := by
  have htasks : u.tasks = functions.map (Task.mk u.stem metadata) := by rw [LoadedUnit.tasks, hu]
  obtain ⟨hcanonicals, done, hdone, hsame, now, hnow, hthere⟩ := mapCarryIn_spec
    (I := fun done => b.Unrecorded t p u (done.map (Task.mk u.stem metadata)))
    horder FunctionOutcome.canonical?
    (fun f => (b.result ⟨u.stem, metadata, f⟩).toOption.map Output.canonical)
    (fun done f rest s hperm hs => by
      have hmem : Task.mk u.stem metadata f ∈ u.tasks :=
        htasks ▸ List.mem_map_of_mem (hperm.mem_iff.mp (by simp))
      rw [List.map_append, List.map_cons, List.map_nil]
      exact h.runTask hold hs ⟨u.stem, metadata, f⟩ hmem)
    hs
  constructor
  · calc (mapCarryIn order (b.runFunction u.stem metadata true) s functions).1.filterMap
          FunctionOutcome.canonical?
        = ((mapCarryIn order (b.runFunction u.stem metadata true) s functions).1.map
            FunctionOutcome.canonical?).filterMap id := by simp [List.filterMap_map]
      _ = b.canonicalForms u := by
          rw [hcanonicals, List.filterMap_map, canonicalForms, htasks, List.filterMap_map]
          rfl
  · refine ⟨hsame, now, hnow, hthere.imp_right ?_⟩
    rintro ⟨task, htask, hok⟩
    exact ⟨task, htasks ▸ (hdone.map _).mem_iff.mp htask, hok⟩

/-- The work on the unit, when the file of its canonical functions is not there. -/
theorem runUnit {s : RunState} {old now : String → Option String} (hold : t.Contents p old)
    (hsame : SameOutside p t s.tree) (hnow : s.tree.Contents p now)
    (hnone : now (canonicalName u.stem) = none) (hschedule : schedule.IsComplete) :
    SameOutside p t (b.runUnit schedule s summary).2.tree ∧
      ∃ now', (b.runUnit schedule s summary).2.tree.Contents p now' ∧
        now' (canonicalName u.stem) =
          if (b.canonicalForms u).isEmpty then none else some (b.canonicalText u) := by
  have hunit : b.unit? s.tree summary = some u := (h.apart.unit?_eq hsame h.mem).trans h.unit
  cases hcontent : u.content with
  | error e =>
    have htasks : u.tasks = [] := by rw [LoadedUnit.tasks, hcontent]
    rw [runUnit_of_error hunit hcontent]
    exact ⟨hsame, now, hnow, by simp [hnone, canonicalForms, htasks]⟩
  | ok content =>
    obtain ⟨functions, metadata⟩ := content
    have hwant : (b.config.files.writeCanonical &&
        !b.isKept s.tree (canonicalPath b.inputs.outDir u.stem)) = true := by
      rw [canonicalPath_eq_join, isKept,
        (hold.hasDirectory h.output hsame).leadsSomewhere_join h.isName_canonicalName,
        hnow.entry?_eq, hnone, h.write]
      simp
    obtain ⟨hforms, hsame, now, hnow, hthere⟩ := h.runFunctions hold hcontent
      ⟨hsame, now, hnow, .inl hnone⟩ (hschedule.functions summary functions.length)
    rw [runUnit_of_ok hunit hcontent, hwant]
    dsimp only
    rw [hforms]
    have hdir := hold.hasDirectory h.output hsame
    obtain ⟨hsame', now', hnow', hcanonical⟩ := saveCanonical_records hnow hdir
      h.isName_canonicalName fun hne =>
        hold.canSave_congr h.output h.isName_canonicalName hnow hdir (h.canonical hne)
    refine ⟨hsame.trans hsame', now', hnow', hcanonical.trans ?_⟩
    cases hempty : (b.canonicalForms u).isEmpty with
    | false => rfl
    | true =>
      refine hthere.resolve_right ?_
      rintro ⟨task, htask, hok⟩
      exact canonicalForms_ne_nil htask hok (List.isEmpty_iff.mp hempty)

/-- The work on another unit. -/
theorem runUnit_other (schedule : Schedule) {s : RunState} {old now : String → Option String}
    (hold : t.Contents p old)
    (hsame : SameOutside p t s.tree) (hnow : s.tree.Contents p now) {other : String}
    (hother : other ∈ found.erase summary) :
    SameOutside p t (b.runUnit schedule s other).2.tree ∧
      ∃ now', (b.runUnit schedule s other).2.tree.Contents p now' ∧
        now' (canonicalName u.stem) = now (canonicalName u.stem) := by
  have hunit := h.apart.unit?_eq hsame (List.mem_of_mem_erase hother)
  have hrefl : Retains (· = canonicalName u.stem) p now s.tree s.tree := .refl hnow
  have hretains : Retains (· = canonicalName u.stem) p now s.tree
      (b.runUnit schedule s other).2.tree :=
    hrefl.runUnit (fun n hn => hn ▸ isLasting_canonicalName _) hnow
      (hold.hasDirectory h.output hsame) h.valid fun v hv m hm hm' =>
        absurd (hm' ▸ hm) (h.others other hother v (hunit ▸ hv))
  obtain ⟨now', hnow', heq⟩ := hretains.contents
  exact ⟨hsame.trans hretains.same, now', hnow', heq _ rfl⟩

/-! ### The run -/

/-- The work on one more unit, be it this one or another one. -/
theorem runUnit_recorded (schedule : Schedule) (hschedule : schedule.IsComplete) {s : RunState}
    {old : String → Option String} (hold : t.Contents p old) {done rest : List String}
    {other : String} (hperm : (done ++ other :: rest).Perm found)
    (hs : b.Recorded t p summary u done s) :
    b.Recorded t p summary u (done ++ [other]) (b.runUnit schedule s other).2 := by
  obtain ⟨hsame, now, hnow, heq⟩ := hs
  by_cases hother : other = summary
  · subst hother
    -- the summary comes up once, since the unit cannot be another one to itself
    have hnew : other ∉ done := fun hmem => by
      have herase := List.cons_perm_iff_perm_erase.mp (List.perm_middle.symm.trans hperm)
      refine h.others other (herase.2.mem_iff.mp (List.mem_append_left _ hmem)) u h.unit ?_
      exact List.mem_append_right _ (by simp [canonicalOf, h.write])
    rw [if_neg hnew] at heq
    simpa [Recorded] using h.runUnit hold hsame hnow heq hschedule
  · have hmem : other ∈ found.erase summary :=
      (List.mem_erase_of_ne hother).mpr (hperm.mem_iff.mp (by simp))
    obtain ⟨hsame, now', hnow', heq'⟩ := h.runUnit_other schedule hold hsame hnow hmem
    exact ⟨hsame, now', hnow', by simpa [Ne.symm hother] using heq'.trans heq⟩

/-- A run that does not find the file of the canonical functions writes it, if there are any: those
of the functions of the unit that succeed now, in the order of its summary. -/
theorem run {old : String → Option String} (hold : t.Contents p old)
    (hnone : old (canonicalName u.stem) = none) (hschedule : schedule.IsComplete)
    (log : ErrorLog) :
    (b.run schedule ⟨t, log⟩).2.tree.entry? (p ++ [canonicalName u.stem]) =
      if (b.canonicalForms u).isEmpty then none else some (.file (b.canonicalText u)) := by
  have hstart : b.Recorded t p summary u [] ⟨t, log⟩ :=
    ⟨SameOutside.refl p t, old, hold, by simpa using hnone⟩
  obtain ⟨-, done, hdone, hsame, now, hnow, heq⟩ := mapCarryIn_spec
    (hschedule.units found.length) (fun _ => ()) (fun _ => ())
    (fun done other rest s hperm hs =>
      ⟨rfl, h.runUnit_recorded schedule hschedule hold hperm hs⟩) hstart
  rw [if_pos (hdone.mem_iff.mpr h.mem)] at heq
  have hretains : Retains (· = canonicalName u.stem) p now _ _ := .refl hnow
  have hlog := hretains.saveLog (fun n hn => hn ▸ isLasting_canonicalName _) hnow
    (hold.hasDirectory h.output hsame)
  obtain ⟨now', hnow', heq'⟩ := hlog.contents
  rw [snd_run h.discovered, hnow'.entry?_eq, heq' _ rfl, heq]
  split <;> rfl

end Records

/-- A run whose units and outputs have names of their own has every unit to record. -/
theorem Separate.records (h : b.Separate t p found) (hwrite : b.config.files.writeCanonical = true)
    (hmem : summary ∈ found) (hunit : b.unit? t summary = some u) :
    b.Records t p found summary u where
  valid := h.valid
  write := hwrite
  discovered := h.discovered
  output := h.output
  apart := h.apart
  mem := hmem
  unit := hunit
  graphs task htask _ := h.canSave _ (List.mem_cons_of_mem _ (graphOf_mem_namesAt
    (List.mem_flatMap.mpr ⟨u, List.mem_filterMap.mpr ⟨summary, hmem, hunit⟩, htask⟩)))
  canonical _ := h.canSave _ (List.mem_cons_of_mem _ (canonicalName_mem_namesAt hwrite
    (List.mem_filterMap.mpr ⟨summary, hmem, hunit⟩)))
  others other hother v hv hin := by
    have hnames := h.names
    have hperm := ((List.perm_cons_erase hmem).filterMap (b.unit? t)).flatMap_right b.names
    rw [namesAt, unitsAt, hperm.nodup_iff, List.filterMap_cons_some hunit, List.flatMap_cons,
      List.nodup_append] at hnames
    refine hnames.2.2 _ ?_ _ (List.mem_flatMap.mpr
      ⟨v, List.mem_filterMap.mpr ⟨other, hother, hv⟩, hin⟩) rfl
    exact List.mem_append_right _ (mem_canonicalOf.mpr ⟨hwrite, rfl⟩)

end Batch

/-! ### Many runs -/

/-- The canonical functions of a unit after a run, which may come after others, with edits in
between: if their file is not there, they are written, of all functions of the unit that succeed
now; if it is there, it stays as it is. And it stays like that in all that follows. -/
theorem canonical_of_history {start t : FileTree} {p : Place}
    (hempty : start.Contents p fun _ => none) (hhistory : History p start t) {b : Batch}
    {found : List String} {summary : String} {u : LoadedUnit}
    (h : b.Records t p found summary u) (hskip : b.config.files.skipExisting = true)
    {schedule : Schedule} (hschedule : schedule.IsComplete) :
    ∃ s, (b.run schedule ⟨t, {}⟩).2 = s ∧
      (t.entry? (p ++ [canonicalName u.stem]) = none →
        s.tree.entry? (p ++ [canonicalName u.stem]) =
          if (b.canonicalForms u).isEmpty then none else some (.file (b.canonicalText u))) ∧
      (∀ e, t.entry? (p ++ [canonicalName u.stem]) = some e →
        s.tree.entry? (p ++ [canonicalName u.stem]) = some e) ∧
      ∀ later, History p s.tree later → ∀ e,
        s.tree.entry? (p ++ [canonicalName u.stem]) = some e →
          later.entry? (p ++ [canonicalName u.stem]) = some e := by
  obtain ⟨old, hold, -⟩ := hhistory.exists_contents hempty
  have hrun : History p t (b.run schedule ⟨t, {}⟩).2.tree :=
    .run .start h.valid hskip h.output schedule {}
  obtain ⟨now, hnow, -⟩ := hrun.exists_contents hold
  have hlasting := isLasting_canonicalName u.stem
  refine ⟨_, rfl, fun hnone => ?_, fun e he => hrun.entry?_eq hold hlasting he,
    fun later hlater e he => hlater.entry?_eq hnow hlasting he⟩
  rw [hold.entry?_eq, Option.map_eq_none_iff] at hnone
  exact h.run hold hnone hschedule {}

/-- The unit of the mixed ones that loads. -/
def mixedUnit : LoadedUnit :=
  (mixedRun.unit? mixedUnits "summaries/u_info_summary.json").getD
    ⟨"", .error (@Error.json "not JSON")⟩

/-- What is computed of it: there is such a unit, and its function that succeeds has a canonical
function. -/
theorem computed_mixedUnit :
    (mixedRun.unit? mixedUnits "summaries/u_info_summary.json").isSome = true ∧
      canonicalName mixedUnit.stem = "u_canonical.json" ∧
      ((mixedRun.canonicalForms mixedUnit).map fun c => c.function.name) = ["f"] ∧
      mixedUnits.entry? ["out"] = some .directory ∧
      mixedUnits.entry? ["out", "u_canonical.json"] = none ∧
      startOf "out" = [] ∧ stepsOf "out" = [.into "out"] := by
  decide +kernel

/-- The unit of the mixed ones that loads is recorded. -/
theorem records_mixedRun : mixedRun.Records mixedUnits ["out"] mixedSummaries
    "summaries/u_info_summary.json" mixedUnit := by
  refine orderly_mixedRun.records rfl (List.mem_cons_self ..) ?_
  obtain ⟨u, hu⟩ := Option.isSome_iff_exists.mp computed_mixedUnit.1
  rw [mixedUnit, hu]
  rfl

/-- The output directory of the mixed units is found in other trees too. -/
theorem hasDirectory_mixed {t : FileTree} (h : t.entry? ["out"] = some .directory) :
    t.HasDirectory "out" ["out"] where
  no_null := checkedMixed.checks.no_null
  walk := by
    obtain ⟨-, -, -, -, -, hstart, hsteps⟩ := computed_mixedUnit
    rw [hstart, hsteps]
    rfl
  directory := h

/-- Here the unit that does not load is repaired afterwards. -/
theorem canonical_of_history_of_mixedUnits :
    ((mixedUnits.Contents ["out"] fun _ => none) ∧ History ["out"] mixedUnits mixedUnits ∧
      mixedRun.Records mixedUnits ["out"] mixedSummaries "summaries/u_info_summary.json"
        mixedUnit ∧ mixedRun.config.files.skipExisting = true) ∧
    ∃ s, (mixedRun.run .inOrder ⟨mixedUnits, {}⟩).2 = s ∧
      s.tree.entry? ["out", "u_canonical.json"] =
        some (.file (mixedRun.canonicalText mixedUnit)) ∧
      (mixedRun.run .inOrder
          ⟨s.tree.set ["summaries", "v_info_summary.json"] (.file "[]"), {}⟩).2.tree.entry?
          ["out", "u_canonical.json"] =
        some (.file (mixedRun.canonicalText mixedUnit)) := by
  obtain ⟨s, hs, hmissing, -, hlater⟩ := canonical_of_history contents_mixed .start
    records_mixedRun rfl Schedule.isComplete_inOrder
  obtain ⟨-, hname, hforms, hdirectory, hnone, -⟩ := computed_mixedUnit
  have hne : (mixedRun.canonicalForms mixedUnit).isEmpty = false := by
    cases h : mixedRun.canonicalForms mixedUnit with
    | nil => simp [h] at hforms
    | cons form forms => rfl
  rw [hne, hname] at hmissing
  rw [hname] at hlater
  have hentry := hmissing hnone
  refine ⟨⟨contents_mixed, .start, records_mixedRun, rfl⟩, s, hs, hentry, ?_⟩
  have hsame : SameOutside ["out"] mixedUnits s.tree := by
    have hrefl : Retains (fun _ => False) ["out"] (fun _ => none) mixedUnits
      (⟨mixedUnits, {}⟩ : RunState).tree := .refl contents_mixed
    rw [← hs]
    exact (hrefl.run (fun _ => False.elim) contents_mixed records_mixedRun.output
      records_mixedRun.valid fun _ => False.elim).same
  refine hlater _ (.run (.edit .start fun q hq => ?_) records_mixedRun.valid rfl
    (hasDirectory_mixed ?_) .inOrder {}) _ hentry
  · rw [FileTree.entry?_set (by simp), if_neg]
    rintro rfl
    revert hq
    decide
  · rw [FileTree.entry?_set (by simp), if_neg (by simp),
      hsame.entry _ (Place.not_inside_self _), hdirectory]

/-! ### A canonical function that is missing -/

/-- The mixed units after a run and a repair of the function that fails. -/
def repairedUnits : FileTree :=
  (mixedRun.runFound .inOrder ⟨mixedUnits, {}⟩ mixedSummaries).2.tree.set
    ["summaries", "u_info_summary.json"] (.file "[[\"f\",[],[]],[\"g\",[],[]]]")

/-- The repaired units come from the mixed ones by a run and an edit. -/
theorem history_repairedUnits : History ["out"] mixedUnits repairedUnits := by
  have hrun : History ["out"] mixedUnits (mixedRun.run .inOrder ⟨mixedUnits, {}⟩).2.tree :=
    .run .start records_mixedRun.valid rfl records_mixedRun.output .inOrder {}
  rw [Batch.run_eq_runFound records_mixedRun.discovered] at hrun
  refine .edit hrun fun q hq => ?_
  rw [repairedUnits, FileTree.entry?_set (by simp), if_neg]
  rintro rfl
  revert hq
  decide

/-- What a run over the repaired units shows: both functions are read, nothing goes wrong with
their unit, the graph of the repaired one is there, and its canonical function is not. -/
def LagsBehind (s : RunState) : Prop :=
  ((s.tree.loadSummary "summaries/u_info_summary.json").map fun fs => fs.map Function.name) =
      .ok ["f", "g"] ∧
    (s.log.failures.map fun r => r.key.unit) = ["v"] ∧
    s.tree.leadsSomewhere (graphPath "out" "u" "g" mixedRun.config.files) = true ∧
    ((s.tree.readText (canonicalPath "out" "u")).bind
      (FileTree.parse (Json.list? CanonicalFunction.ofJson?))).map
        (fun cs => cs.map fun c => c.function.name) = .ok ["f"]

instance (s : RunState) : Decidable (LagsBehind s) := inferInstanceAs (Decidable (_ ∧ _))

/-- The summary of the repaired units is found, and their canonical functions lag behind. -/
theorem computed_repairedUnits :
    repairedUnits.ListsInOrder "summaries" mixedRun.config.files.summarySuffix ["summaries"]
      mixedSummaries ∧
    LagsBehind (mixedRun.runFound .inOrder ⟨repairedUnits, {}⟩ mixedSummaries).2 := by
  decide +kernel

/-- The canonical functions do not keep up with the graphs: a further run over the repaired unit
writes the graph of the repaired function, and nothing goes wrong with the unit, but its canonical
function is not added to the file. -/
theorem canonical_lags_behind :
    mixedRun.config.files.skipExisting = true ∧ mixedRun.config.files.writeCanonical = true ∧
      (mixedUnits.Contents ["out"] fun _ => none) ∧ History ["out"] mixedUnits repairedUnits ∧
      LagsBehind (mixedRun.run .inOrder ⟨repairedUnits, {}⟩).2 := by
  obtain ⟨hlists, hlags⟩ := computed_repairedUnits
  have hrun : mixedRun.run .inOrder ⟨repairedUnits, {}⟩ =
      mixedRun.runFound .inOrder ⟨repairedUnits, {}⟩ mixedSummaries :=
    Batch.run_eq_runFound hlists.unitsBelow_eq
  exact ⟨rfl, rfl, contents_mixed, history_repairedUnits, hrun ▸ hlags⟩

end InstrGraph

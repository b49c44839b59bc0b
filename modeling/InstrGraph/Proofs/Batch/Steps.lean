import InstrGraph.Proofs.Batch.Image
import InstrGraph.Proofs.Batch.Order
import InstrGraph.Proofs.Files.Save

/-!
# The steps of a run

What the work on a function and on a unit does to the state of a run, if its outputs can be saved
under names that nothing else has: it becomes of them what `InstrGraph.Proofs.Batch.Image` says,
the outputs are written over the old files, and the log gets its rows (`runFunction_spec`,
`runUnit_spec`).

The state is described by what has been written and logged so far, in any order, which is what
makes the steps fit together however they are scheduled (`Reaches`).
-/

namespace InstrGraph

open FileTree (Contents HasDirectory IsUsable SameOutside temporaryName)
open InstrGraph.Path (IsName join)

/-! ### Files written over others -/

/-- The files of a directory after outputs have been written over old ones. Temporary files may be
gone. -/
structure Overlay (temporary : String → Prop) (writes : List (String × String))
    (old now : String → Option String) : Prop where
  written : ∀ name text, (name, text) ∈ writes → now name = some text
  kept : ∀ name, name ∉ writes.map Prod.fst → ¬ temporary name → now name = old name
  cleared : ∀ name, temporary name → now name = none ∨ now name = old name

/-- A name that an output can be saved under without harm to others: it can be written to by way
of its temporary file, and is not that of another output. -/
structure IsOutput (temporary : String → Prop) (name : String) : Prop where
  isName : IsName name
  usable : IsUsable name
  temporary_usable : IsUsable (temporaryName name)
  not_temporary : ¬ temporary name
  temporary : temporary (temporaryName name)

namespace Overlay

variable {temporary : String → Prop} {writes writes' : List (String × String)}
  {old now : String → Option String} {name : String}

/-- Old files with nothing written over them. -/
theorem refl (temporary : String → Prop) (old : String → Option String) :
    Overlay temporary [] old old :=
  ⟨fun _ _ h => absurd h List.not_mem_nil, fun _ _ _ => rfl, fun _ _ => .inr rfl⟩

/-- It does not matter in which order outputs are written over old files. -/
theorem perm (h : Overlay temporary writes old now) (hperm : writes.Perm writes') :
    Overlay temporary writes' old now where
  written name text hmem := h.written name text (hperm.mem_iff.mpr hmem)
  kept name hnot := h.kept name fun hmem => hnot ((hperm.map Prod.fst).mem_iff.mp hmem)
  cleared := h.cleared

/-- One more output. -/
theorem write (h : Overlay temporary writes old now) (hname : IsOutput temporary name)
    (hnew : name ∉ writes.map Prod.fst) (hwrites : ∀ n ∈ writes.map Prod.fst, ¬ temporary n)
    (text : String) : Overlay temporary (writes ++ [(name, text)]) old
      (Function.update (Function.update now (temporaryName name) none) name (some text)) where
  written n x hmem := by
    rcases List.mem_append.mp hmem with hmem | hmem
    · have hn : n ∈ writes.map Prod.fst := List.mem_map_of_mem hmem
      have hne : n ≠ name := fun heq => hnew (heq ▸ hn)
      have htemporary : n ≠ temporaryName name := fun heq => hwrites n hn (heq ▸ hname.temporary)
      rw [Function.update_of_ne hne, Function.update_of_ne htemporary]
      exact h.written n x hmem
    · obtain ⟨rfl, rfl⟩ := Prod.mk.inj (List.mem_singleton.mp hmem)
      exact Function.update_self ..
  kept n hn htemporary := by
    simp only [List.map_append, List.map_cons, List.map_nil, List.mem_append, List.mem_singleton,
      not_or] at hn
    have hne : n ≠ temporaryName name := fun heq => htemporary (heq ▸ hname.temporary)
    rw [Function.update_of_ne hn.2, Function.update_of_ne hne]
    exact h.kept n hn.1 htemporary
  cleared n htemporary := by
    have hne : n ≠ name := fun heq => hname.not_temporary (heq ▸ htemporary)
    rw [Function.update_of_ne hne]
    by_cases heq : n = temporaryName name
    · rw [heq, Function.update_self]
      exact .inl rfl
    · rw [Function.update_of_ne heq]
      exact h.cleared n htemporary

end Overlay

/-! ### The state of a run -/

/-- What a state has come to: by the side of the output directory nothing has changed, the
directory holds the outputs over its old files, and the log has the rows. -/
structure Reaches (t : FileTree) (p : Place) (temporary : String → Prop)
    (old : String → Option String) (writes : List (String × String)) (rows : List LogRow)
    (s : RunState) : Prop where
  same : SameOutside p t s.tree
  contents : ∃ now, s.tree.Contents p now ∧ Overlay temporary writes old now
  unclaimed : ∀ n ∈ writes.map Prod.fst, ¬ temporary n
  log : s.log.Lists rows

namespace Batch

/-- The names that are left alone in a directory of files. -/
def keeps (b : Batch) (files : String → Option String) (name : String) : Bool :=
  b.config.files.skipExisting && (files name).isSome

end Batch

/-! ### A unit as it is read -/

namespace Batch

variable {b : Batch} {s : RunState} {summary : String} {u : LoadedUnit} {schedule : Schedule}

/-- Nothing is done for a summary that is none of a unit. -/
theorem runUnit_of_none (h : b.unit? s.tree summary = none) :
    b.runUnit schedule s summary = ({}, s) := by
  rw [unit?, Option.map_eq_none_iff] at h
  rw [runUnit]
  simp only [h]

/-- A unit that cannot be loaded is one failure, in the report and in the log. -/
theorem runUnit_of_error {e : Error} (h : b.unit? s.tree summary = some u)
    (hu : u.content = .error e) : b.runUnit schedule s summary =
      ({ units := 1, failed := 1 },
        { s with log := s.log.recordFailure (.wholeUnit u.stem) e }) := by
  obtain ⟨paths, hpaths, rfl⟩ := Option.map_eq_some_iff.mp h
  rw [runUnit]
  simp only [hpaths, show loadUnit s.tree paths = .error e from hu]

/-- A unit that is loaded is worked on function by function, and then its canonical functions are
saved. -/
theorem runUnit_of_ok {functions : List Function} {metadata : Metadata}
    (h : b.unit? s.tree summary = some u) (hu : u.content = .ok (functions, metadata)) :
    b.runUnit schedule s summary =
      let want := b.config.files.writeCanonical &&
        !b.isKept s.tree (canonicalPath b.inputs.outDir u.stem)
      let worked := mapCarryIn (schedule.functions summary functions.length)
        (b.runFunction u.stem metadata want) s functions
      let saved := b.saveCanonical u.stem worked.2
        (worked.1.filterMap FunctionOutcome.canonical?)
      (({ units := 1 } : BatchReport).add
        ((BatchReport.total (worked.1.map FunctionOutcome.report)).add saved.1), saved.2) := by
  obtain ⟨paths, hpaths, rfl⟩ := Option.map_eq_some_iff.mp h
  rw [runUnit]
  simp only [hpaths, show loadUnit s.tree paths = .ok (functions, metadata) from hu]

end Batch

namespace Reaches

variable {b : Batch} {t : FileTree} {p : Place} {temporary : String → Prop}
  {old : String → Option String} {writes writes' : List (String × String)}
  {rows rows' : List LogRow} {s : RunState} {name : String}

/-- In the beginning nothing is written and nothing logged. -/
theorem start (hold : t.Contents p old) : Reaches t p temporary old [] [] ⟨t, {}⟩ where
  same := SameOutside.refl p t
  contents := ⟨old, hold, Overlay.refl temporary old⟩
  unclaimed _ hn := absurd hn List.not_mem_nil
  log := .empty

section

variable (h : Reaches t p temporary old writes rows s)

include h

/-- It does not matter in which order outputs and rows are listed. -/
theorem perm (hwrites : writes.Perm writes') (hrows : rows.Perm rows') :
    Reaches t p temporary old writes' rows' s where
  same := h.same
  contents := h.contents.imp fun _ ⟨hnow, hover⟩ => ⟨hnow, hover.perm hwrites⟩
  unclaimed n hn := h.unclaimed n ((hwrites.map Prod.fst).mem_iff.mpr hn)
  log := h.log.congr fun _ => hrows.mem_iff

/-- Recording something changes the rows only. -/
theorem withLog {log : ErrorLog} (hlog : log.Lists rows') :
    Reaches t p temporary old writes rows' { s with log } :=
  ⟨h.same, h.contents, h.unclaimed, hlog⟩

variable (hold : t.Contents p old) (hdir : t.HasDirectory b.inputs.outDir p)
  (hname : IsOutput temporary name) (hnew : name ∉ writes.map Prod.fst)

include hold hdir

/-- The output directory is there all the time. -/
theorem hasDirectory : s.tree.HasDirectory b.inputs.outDir p := hold.hasDirectory hdir h.same

include hname hnew

/-- Whether something is left alone is known from the old files. -/
theorem isKept_eq : b.isKept s.tree (join b.inputs.outDir name) = b.keeps old name := by
  obtain ⟨now, hnow, hover⟩ := h.contents
  rw [Batch.isKept, hnow.isSome_iff (h.hasDirectory hold hdir) hname.isName hname.usable,
    hover.kept name hnew hname.not_temporary, Batch.keeps]

/-- Saving an output adds it to those that are written. -/
theorem save (text : String) : ∃ tree,
    s.tree.save (join b.inputs.outDir name) text = (.ok (), tree) ∧
      Reaches t p temporary old (writes ++ [(name, text)]) rows { s with tree } := by
  obtain ⟨now, hnow, hover⟩ := h.contents
  have hdir := h.hasDirectory hold hdir
  have hsave : s.tree.CanSave (join b.inputs.outDir name) :=
    hnow.canSave hdir hname.isName hname.usable hname.temporary_usable
  refine ⟨(s.tree.save (join b.inputs.outDir name) text).2, Prod.ext (hsave text) rfl,
    h.same.trans (hdir.sameOutside_save hname.isName text),
    ⟨_, hnow.save hdir hname.isName hsave text, hover.write hname hnew h.unclaimed text⟩, ?_,
    h.log⟩
  intro n hn
  rw [List.map_append, List.mem_append] at hn
  rcases hn with hn | hn
  · exact h.unclaimed n hn
  · obtain rfl := List.mem_singleton.mp hn
    exact hname.not_temporary

end

/-! ### The work on a function -/

variable {task : Task}

/-- The work on a function adds its graph to the outputs and its rows to the log, and comes to what
it should. -/
theorem runFunction_spec (h : Reaches t p temporary old writes rows s) (want : Bool)
    (hold : t.Contents p old) (hdir : t.HasDirectory b.inputs.outDir p)
    (hname : IsOutput temporary (b.graphOf task))
    (hnew : b.graphOf task ∉ writes.map Prod.fst) (hkey : ∀ r ∈ rows, r.key ≠ task.key) :
    (b.runFunction task.stem task.metadata want s task.function).1 =
        b.outcome (b.keeps old) want task ∧
      Reaches t p temporary old (writes ++ b.graphs (b.keeps old) task)
        (rows ++ b.taskRows (b.keeps old) want task)
        (b.runFunction task.stem task.metadata want s task.function).2 := by
  have htaskKey : (⟨task.stem, task.function.name⟩ : LogKey) = task.key := rfl
  simp only [Batch.runFunction, b.graphPath_task, h.isKept_eq hold hdir hname hnew,
    b.processFunction_task, htaskKey]
  rw [Batch.outcome, Batch.graphs, Batch.taskRows]
  cases hr : b.result task with
  | error e =>
    cases hk : b.keeps old (b.graphOf task) && !want with
    | true => simpa using h
    | false => simpa using h.withLog (h.log.recordFailure hkey e)
  | ok output =>
    cases hk : b.keeps old (b.graphOf task) with
    | true => cases want <;> simpa using h
    | false =>
      obtain ⟨tree, hsave, hreach⟩ :=
        h.save hold hdir hname hnew (b.textOf output.document.toJson)
      have hlog : (s.log.recordWarnings task.key output.diagnostics).Lists
          (rows ++ if output.diagnostics.isEmpty then []
            else [⟨task.key, { warnings := output.diagnostics.map Diagnostic.line }⟩]) := by
        cases hd : output.diagnostics with
        | nil => simpa [ErrorLog.recordWarnings] using h.log
        | cons d ds => exact h.log.recordWarnings hkey (List.cons_ne_nil d ds)
      simp only [Bool.false_and, Bool.false_eq_true, if_false, hsave, Bool.false_or]
      exact ⟨trivial, hreach.withLog hlog⟩

/-- The work on one more function of a unit, whose graph has a name of its own. -/
theorem runTask_spec (task : Task) {want : Bool} {done : List Task}
    (h : Reaches t p temporary old (writes ++ done.flatMap (b.graphs (b.keeps old)))
      (rows ++ done.flatMap (b.taskRows (b.keeps old) want)) s)
    (hold : t.Contents p old) (hdir : t.HasDirectory b.inputs.outDir p)
    (hname : IsOutput temporary (b.graphOf task)) (hnew : b.graphOf task ∉ writes.map Prod.fst)
    (hkeys : ∀ r ∈ rows, r.key.unit ≠ task.stem)
    (hother : ∀ other ∈ done, b.graphOf other ≠ b.graphOf task) :
    (b.runFunction task.stem task.metadata want s task.function).1 =
        b.outcome (b.keeps old) want task ∧
      Reaches t p temporary old (writes ++ (done ++ [task]).flatMap (b.graphs (b.keeps old)))
        (rows ++ (done ++ [task]).flatMap (b.taskRows (b.keeps old) want))
        (b.runFunction task.stem task.metadata want s task.function).2 := by
  have hfree : b.graphOf task ∉
      (writes ++ done.flatMap (b.graphs (b.keeps old))).map Prod.fst := by
    intro hmem
    rw [List.map_append, List.mem_append] at hmem
    rcases hmem with hmem | hmem
    · exact hnew hmem
    · obtain ⟨x, hx, hxname⟩ := List.mem_map.mp hmem
      obtain ⟨other, hdone, hxother⟩ := List.mem_flatMap.mp hx
      exact hother other hdone ((Batch.fst_of_mem_graphs hxother).symm.trans hxname)
  have hkey : ∀ r ∈ rows ++ done.flatMap (b.taskRows (b.keeps old) want), r.key ≠ task.key := by
    intro r hr heq
    rcases List.mem_append.mp hr with hr | hr
    · exact hkeys r hr (congrArg LogKey.unit heq)
    · obtain ⟨other, hdone, hrother⟩ := List.mem_flatMap.mp hr
      exact hother other hdone
        (Batch.graphOf_eq_of_key_eq ((Batch.key_of_mem_taskRows hrother).symm.trans heq))
  simpa [List.append_assoc] using h.runFunction_spec want hold hdir hname hfree hkey

/-! ### The work on a unit -/

/-- The work on the functions of a unit adds their graphs and their rows. -/
theorem runFunctions_spec (h : Reaches t p temporary old writes rows s) (want : Bool)
    (hold : t.Contents p old) (hdir : t.HasDirectory b.inputs.outDir p) {u : LoadedUnit}
    {functions : List Function} {metadata : Metadata} (hu : u.content = .ok (functions, metadata))
    (hnames : ∀ n ∈ u.tasks.map b.graphOf, IsOutput temporary n ∧ n ∉ writes.map Prod.fst)
    (hnodup : (u.tasks.map b.graphOf).Nodup) (hkeys : ∀ r ∈ rows, r.key.unit ≠ u.stem)
    {order : List Nat} (horder : order.Perm (List.range functions.length)) :
    (mapCarryIn order (b.runFunction u.stem metadata want) s functions).1 =
        u.tasks.map (b.outcome (b.keeps old) want) ∧
      Reaches t p temporary old (writes ++ u.tasks.flatMap (b.graphs (b.keeps old)))
        (rows ++ u.tasks.flatMap (b.taskRows (b.keeps old) want))
        (mapCarryIn order (b.runFunction u.stem metadata want) s functions).2 := by
  have htasks : u.tasks = functions.map (Task.mk u.stem metadata) := by rw [LoadedUnit.tasks, hu]
  rw [htasks] at hnames hnodup ⊢
  obtain ⟨houtcomes, done, hdone, hreach⟩ := mapCarryIn_spec
    (I := fun done => Reaches t p temporary old
      (writes ++ (done.map (Task.mk u.stem metadata)).flatMap (b.graphs (b.keeps old)))
      (rows ++ (done.map (Task.mk u.stem metadata)).flatMap (b.taskRows (b.keeps old) want)))
    horder id (fun f => b.outcome (b.keeps old) want ⟨u.stem, metadata, f⟩)
    (fun done f rest s hperm hs => by
      have hmem : Task.mk u.stem metadata f ∈ functions.map (Task.mk u.stem metadata) :=
        List.mem_map_of_mem (hperm.mem_iff.mp (by simp))
      obtain ⟨hname, hnew⟩ := hnames _ (List.mem_map_of_mem hmem)
      -- the graph of this function has a name of its own
      have hothers := ((hperm.map (Task.mk u.stem metadata)).map b.graphOf).nodup_iff.mpr hnodup
      rw [List.map_append, List.map_append, List.map_cons, List.map_cons,
        List.nodup_append] at hothers
      rw [List.map_append, List.map_cons, List.map_nil]
      exact hs.runTask_spec ⟨u.stem, metadata, f⟩ hold hdir hname hnew hkeys fun other hdone =>
        hothers.2.2 _ (List.mem_map_of_mem hdone) _ (List.mem_cons_self ..))
    (by simpa using h)
  rw [List.map_id] at houtcomes
  have hperm := hdone.map (Task.mk u.stem metadata)
  rw [List.map_map]
  exact ⟨houtcomes, hreach.perm ((hperm.flatMap_right _).append_left _)
    ((hperm.flatMap_right _).append_left _)⟩

/-- Saving the canonical functions adds them to the outputs if there are any. -/
theorem saveCanonical_spec (h : Reaches t p temporary old writes rows s)
    (hold : t.Contents p old) (hdir : t.HasDirectory b.inputs.outDir p) {u : LoadedUnit}
    (hcanonical : ∀ n ∈ b.canonicalOf u, IsOutput temporary n ∧ n ∉ writes.map Prod.fst)
    {forms : List CanonicalFunction}
    (hforms : forms = if b.wants (b.keeps old) u then b.canonicalForms u else []) :
    (b.saveCanonical u.stem s forms).1 = {} ∧
      Reaches t p temporary old (writes ++ b.canonicals (b.keeps old) u) rows
        (b.saveCanonical u.stem s forms).2 := by
  rw [Batch.saveCanonical, Batch.canonicals]
  cases hw : b.wants (b.keeps old) u && !(b.canonicalForms u).isEmpty with
  | false =>
    have hempty : forms.isEmpty = true := by
      rw [hforms]
      cases hwants : b.wants (b.keeps old) u <;> simp_all
    simpa [hempty] using h
  | true =>
    rw [Bool.and_eq_true] at hw
    obtain ⟨hwants, hne⟩ := hw
    rw [hwants, if_pos rfl] at hforms
    have hwrite : b.config.files.writeCanonical = true := by
      rw [Batch.wants, Bool.and_eq_true] at hwants
      exact hwants.1
    obtain ⟨hname, hnew⟩ := hcanonical (canonicalName u.stem) (by simp [Batch.canonicalOf, hwrite])
    obtain ⟨tree, hsave, hreach⟩ := h.save hold hdir hname hnew (b.canonicalText u)
    have hempty : forms.isEmpty = false := by simpa [hforms] using hne
    have htext : b.textOf (.array (forms.map CanonicalFunction.toJson)) = b.canonicalText u := by
      rw [hforms, Batch.canonicalText]
    simp only [hempty, Bool.false_eq_true, if_false, htext, canonicalPath_eq_join, hsave]
    exact ⟨trivial, hreach⟩

/-- The canonical functions are wanted as they were when the run began. -/
theorem wants_eq (h : Reaches t p temporary old writes rows s) (hold : t.Contents p old)
    (hdir : t.HasDirectory b.inputs.outDir p) {u : LoadedUnit}
    (hcanonical : ∀ n ∈ b.canonicalOf u, IsOutput temporary n ∧ n ∉ writes.map Prod.fst) :
    (b.config.files.writeCanonical &&
      !b.isKept s.tree (canonicalPath b.inputs.outDir u.stem)) = b.wants (b.keeps old) u := by
  rw [Batch.wants]
  cases hw : b.config.files.writeCanonical with
  | false => rfl
  | true =>
    obtain ⟨hname, hnew⟩ := hcanonical (canonicalName u.stem) (by simp [Batch.canonicalOf, hw])
    rw [canonicalPath_eq_join, h.isKept_eq hold hdir hname hnew]

/-- The work on a summary, whose unit is the same in this state as at the start. -/
theorem runUnit_spec (h : Reaches t p temporary old writes rows s) (hold : t.Contents p old)
    (hdir : t.HasDirectory b.inputs.outDir p) {summary : String}
    (hunit : b.unit? s.tree summary = b.unit? t summary)
    (hnames : ∀ u ∈ b.unit? t summary, ∀ n ∈ b.names u,
      IsOutput temporary n ∧ n ∉ writes.map Prod.fst)
    (hnodup : ∀ u ∈ b.unit? t summary, (b.names u).Nodup)
    (hkeys : ∀ u ∈ b.unit? t summary, ∀ r ∈ rows, r.key.unit ≠ u.stem)
    {schedule : Schedule} (hschedule : schedule.IsComplete) :
    (b.runUnit schedule s summary).1 = ((b.unit? t summary).map (b.report (b.keeps old))).getD {} ∧
      Reaches t p temporary old
        (writes ++ (b.unit? t summary).toList.flatMap (b.writes (b.keeps old)))
        (rows ++ (b.unit? t summary).toList.flatMap (b.rows (b.keeps old)))
        (b.runUnit schedule s summary).2 := by
  rw [← hunit] at hnames hnodup hkeys ⊢
  cases hu : b.unit? s.tree summary with
  | none =>
    rw [Batch.runUnit_of_none hu]
    simpa using h
  | some u =>
    rw [hu] at hnames hnodup hkeys
    have hname (n : String) (hn : n ∈ b.names u) := hnames u rfl n hn
    cases hcontent : u.content with
    | error e =>
      have hkey : ∀ r ∈ rows, r.key ≠ .wholeUnit u.stem := fun r hr heq =>
        hkeys u rfl r hr (by rw [heq]; rfl)
      have hrow := h.log.recordFailure hkey e
      rw [Batch.runUnit_of_error hu hcontent]
      simpa [Batch.writes_of_error hcontent, Batch.rows, Batch.report, hcontent]
        using h.withLog hrow
    | ok content =>
      obtain ⟨functions, metadata⟩ := content
      have hcanonical (n : String) (hn : n ∈ b.canonicalOf u) :=
        hname n (List.mem_append_right _ hn)
      have hunique := List.nodup_append.mp (hnodup u rfl)
      obtain ⟨houtcomes, hreach⟩ := h.runFunctions_spec (b.wants (b.keeps old) u) hold hdir
        hcontent (fun n hn => hname n (List.mem_append_left _ hn)) hunique.1 (hkeys u rfl)
        (hschedule.functions summary functions.length)
      have hforms :=
        b.filterMap_canonical?_outcome (b.keeps old) (b.wants (b.keeps old) u) u.tasks
      rw [← houtcomes] at hforms
      have hfree (n : String) (hn : n ∈ b.canonicalOf u) : IsOutput temporary n ∧
          n ∉ (writes ++ u.tasks.flatMap (b.graphs (b.keeps old))).map Prod.fst := by
        refine ⟨(hcanonical n hn).1, fun hmem => ?_⟩
        rw [List.map_append, List.mem_append] at hmem
        rcases hmem with hmem | hmem
        · exact (hcanonical n hn).2 hmem
        · obtain ⟨x, hx, rfl⟩ := List.mem_map.mp hmem
          obtain ⟨task, htask, hx⟩ := List.mem_flatMap.mp hx
          exact hunique.2.2 _ (List.mem_map_of_mem htask) _ hn (Batch.fst_of_mem_graphs hx).symm
      obtain ⟨hsaved, hreach⟩ := hreach.saveCanonical_spec hold hdir hfree hforms
      rw [Batch.runUnit_of_ok hu hcontent, h.wants_eq hold hdir hcanonical]
      dsimp only
      constructor
      · rw [hsaved, houtcomes, BatchReport.add_empty]
        simp [Batch.report, hcontent, Function.comp_def]
      · rw [List.append_assoc] at hreach
        simpa [Batch.writes, Batch.rows, hcontent] using hreach

end Reaches

end InstrGraph

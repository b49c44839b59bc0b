import InstrGraph.Proofs.Batch.Steps

/-!
# Orderly runs

A run is orderly if its inputs are out of the way of its outputs, its outputs are out of the way of
each other and of each other's temporary files, and they can be saved (`Batch.Orderly`). Then it
succeeds, whatever is in the output directory before, and whatever the order of the work: every unit
and function comes to what `InstrGraph.Proofs.Batch.Image` says (`Orderly.exists_run`).
-/

namespace InstrGraph

open FileTree (Contents HasDirectory IsUsable SameOutside temporaryName)
open InstrGraph.Path (IsName join)

/-- The paths that a unit is read from. -/
def UnitPaths.inputs (unit : UnitPaths) : List String :=
  unit.summary :: (unit.globals.toList ++ unit.structs.toList)

namespace FileTree

variable {t t' : FileTree}

/-- Reading a text depends on what its path finds. -/
theorem readText_congr {path : String} (h : t'.find path = t.find path) :
    t'.readText path = t.readText path := by
  rw [readText, readText, read, read, h]

/-- Reading a companion file depends on what its path finds. -/
theorem readCompanion_congr {path : Option String} (h : ∀ x ∈ path, t'.find x = t.find x) :
    t'.readCompanion path = t.readCompanion path := by
  cases path with
  | none => rfl
  | some x =>
    rw [readCompanion, readCompanion, hasFile, hasFile, readText_congr (h x rfl), h x rfl]

end FileTree

namespace Batch

variable {b : Batch} {t t' : FileTree} {p : Place} {found : List String}

/-- Loading a unit depends on what the paths of its inputs find. -/
theorem loadUnit_congr {unit : UnitPaths} (h : ∀ path ∈ unit.inputs, t'.find path = t.find path) :
    loadUnit t' unit = loadUnit t unit := by
  have hsummary : t'.loadSummary unit.summary = t.loadSummary unit.summary := by
    rw [FileTree.loadSummary, FileTree.loadSummary, FileTree.readText_congr]
    exact h _ (List.mem_cons_self ..)
  have hglobals : t'.readCompanion unit.globals = t.readCompanion unit.globals :=
    FileTree.readCompanion_congr fun x hx => h x (by simp_all [UnitPaths.inputs])
  have hstructs : t'.readCompanion unit.structs = t.readCompanion unit.structs :=
    FileTree.readCompanion_congr fun x hx => h x (by simp_all [UnitPaths.inputs])
  rw [loadUnit, loadUnit, hsummary, FileTree.loadMetadata, FileTree.loadMetadata, hglobals,
    hstructs]

/-! ### Inputs apart from outputs -/

/-- The output directory is outside of the inputs: no summary and no companion file is looked for
inside of it, and the summaries are not those in a directory that it is in. -/
structure IsApart (b : Batch) (t : FileTree) (p : Place) (found : List String) : Prop where
  summaries : ∀ r ∈ t.visitedBy b.inputs.summaries, ¬ p.Inside r
  not_above : ∀ r, t.locate b.inputs.summaries = .ok r → ¬ r <+: p
  inputs : ∀ summary ∈ found, ∀ unit,
    UnitPaths.resolve? summary b.inputs.globalsDir b.inputs.structsDir b.config.files = some unit →
      ∀ path ∈ unit.inputs, ∀ r ∈ t.visitedBy path, ¬ p.Inside r

/-- Changes in an output directory that is apart from the inputs do not change a unit. -/
theorem IsApart.unit?_eq (h : b.IsApart t p found) (hsame : SameOutside p t t') {summary : String}
    (hsummary : summary ∈ found) : b.unit? t' summary = b.unit? t summary := by
  rw [unit?, unit?]
  refine Option.map_congr fun unit hunit => ?_
  rw [loadUnit_congr fun path hpath => hsame.find_eq (h.inputs summary hsummary unit hunit path
    hpath)]

/-! ### Conditions -/

/-- The names that the units of some summaries may write to. -/
def namesAt (b : Batch) (t : FileTree) (found : List String) : List String :=
  (b.unitsAt t found).flatMap b.names

/-- The name is that of the temporary file for an output. -/
def IsTemporary (b : Batch) (t : FileTree) (found : List String) (name : String) : Prop :=
  ∃ n ∈ logName :: b.namesAt t found, temporaryName n = name

/-- A run can do its work: the configuration is sensible, the summaries are found, the output
directory is there and apart from the inputs, and all outputs can be saved. -/
structure CanRun (b : Batch) (t : FileTree) (p : Place) (found : List String) : Prop where
  valid : b.config.validate = .ok ()
  directory : t.find b.inputs.summaries = .ok .directory
  discovered : t.unitsBelow b.inputs.summaries b.config.files.summarySuffix = .ok found
  output : t.HasDirectory b.inputs.outDir p
  apart : b.IsApart t p found
  canSave : ∀ n ∈ logName :: b.namesAt t found, t.CanSave (join b.inputs.outDir n)

/-- The units and the outputs of a run have names of their own: no two units have one stem, and no
two outputs one name. -/
structure Separate (b : Batch) (t : FileTree) (p : Place) (found : List String) : Prop
    extends b.CanRun t p found where
  stems : ((b.unitsAt t found).map LoadedUnit.stem).Nodup
  names : (b.namesAt t found).Nodup

/-- A run is orderly if no output has the name of the temporary file of another one either. -/
structure Orderly (b : Batch) (t : FileTree) (p : Place) (found : List String) : Prop
    extends b.Separate t p found where
  temporaries : ∀ m ∈ b.namesAt t found, ∀ n ∈ b.namesAt t found, temporaryName m ≠ n

/-- One more summary brings its unit, if it is that of one. -/
theorem unitsAt_concat (b : Batch) (t : FileTree) (summaries : List String) (summary : String) :
    b.unitsAt t (summaries ++ [summary]) =
      b.unitsAt t summaries ++ (b.unit? t summary).toList := by
  rw [unitsAt, List.filterMap_append, ← unitsAt]
  cases hu : b.unit? t summary <;> simp [hu]

/-- An output of a function or a unit has an underscore in its name. -/
theorem underscore_mem_of_mem_namesAt {n : String} (h : n ∈ b.namesAt t found) :
    '_' ∈ n.toList := by
  obtain ⟨u, -, hn⟩ := List.mem_flatMap.mp h
  rcases List.mem_append.mp hn with hn | hn
  · obtain ⟨task, -, rfl⟩ := List.mem_map.mp hn
    exact underscore_mem_graphName ..
  · rw [canonicalOf] at hn
    split at hn
    · obtain rfl := List.mem_singleton.mp hn
      exact underscore_mem_canonicalName u.stem
    · cases hn

/-- No output of a unit has the name of the log. -/
theorem logName_notMem_namesAt : logName ∉ b.namesAt t found := fun h =>
  absurd (underscore_mem_of_mem_namesAt h) (by decide)

/-- Whatever is left alone, only these names are written to. -/
theorem fst_mem_namesAt {kept : String → Bool} {x : String × String}
    (h : x ∈ (b.unitsAt t found).flatMap (b.writes kept)) : x.1 ∈ b.namesAt t found := by
  obtain ⟨u, hu, hx⟩ := List.mem_flatMap.mp h
  exact List.mem_flatMap.mpr ⟨u, hu, fst_mem_names_of_mem_writes hx⟩

/-- The outputs of a unit have names of files. -/
theorem isName_of_mem_names (hvalid : b.config.validate = .ok ()) {summary : String}
    {u : LoadedUnit} (hu : b.unit? t summary = some u) {n : String} (hn : n ∈ b.names u) :
    IsName n := by
  obtain ⟨paths, hpaths, rfl⟩ := Option.map_eq_some_iff.mp hu
  have hslash := UnitPaths.noSlash_of_stem? (UnitPaths.stem?_of_resolve? hpaths)
  rcases List.mem_append.mp hn with hn | hn
  · obtain ⟨task, htask, rfl⟩ := List.mem_map.mp hn
    rw [graphOf, stem_of_mem_tasks htask]
    exact isName_graphName hvalid hslash _
  · rw [canonicalOf] at hn
    split at hn
    · obtain rfl := List.mem_singleton.mp hn
      exact isName_canonicalName hslash
    · cases hn

/-- The outputs of all units have names of files. -/
theorem isName_of_mem_namesAt (hvalid : b.config.validate = .ok ()) {n : String}
    (h : n ∈ b.namesAt t found) : IsName n := by
  obtain ⟨u, hu, hn⟩ := List.mem_flatMap.mp h
  obtain ⟨summary, -, hu⟩ := List.mem_filterMap.mp hu
  exact isName_of_mem_names hvalid hu hn

namespace Orderly

variable (h : b.Orderly t p found) {old : String → Option String} (hold : t.Contents p old)

include h

/-- No output of an orderly run has the name of a temporary file. -/
theorem not_temporary {n : String} (hn : n ∈ logName :: b.namesAt t found) :
    ¬ b.IsTemporary t found n := by
  rintro ⟨m, hm, heq⟩
  rcases List.mem_cons.mp hm with rfl | hm <;> rcases List.mem_cons.mp hn with rfl | hn
  · exact FileTree.temporaryName_ne _ heq
  · have hunderscore := underscore_mem_of_mem_namesAt hn
    rw [← heq] at hunderscore
    exact absurd hunderscore (by decide)
  · exact FileTree.temporaryName_ne_of_getLast? (by decide) m heq
  · exact h.temporaries m hm n hn heq

include hold

/-- Every output has a name of its own that it can be saved under. -/
theorem isOutput {n : String} (hn : n ∈ logName :: b.namesAt t found) :
    IsOutput (b.IsTemporary t found) n := by
  have hname : IsName n := by
    rcases List.mem_cons.mp hn with rfl | hn
    · exact isName_logName
    · exact isName_of_mem_namesAt h.valid hn
  have hsave := (h.output.canSave_join_iff hname).mp (h.canSave n hn)
  exact ⟨hname, hold.canWrite_iff.mp hsave.2, hold.canWrite_iff.mp hsave.1, h.not_temporary hn,
    n, hn, rfl⟩

/-- The work on a summary, behind and before others. -/
theorem runUnit_spec {schedule : Schedule} (hschedule : schedule.IsComplete)
    {done rest : List String} {summary : String} {s : RunState}
    (hperm : (done ++ summary :: rest).Perm found)
    (hs : Reaches t p (b.IsTemporary t found) old
      ((b.unitsAt t done).flatMap (b.writes (b.keeps old)))
      ((b.unitsAt t done).flatMap (b.rows (b.keeps old))) s) :
    (b.runUnit schedule s summary).1 = ((b.unit? t summary).map (b.report (b.keeps old))).getD {} ∧
      Reaches t p (b.IsTemporary t found) old
        ((b.unitsAt t (done ++ [summary])).flatMap (b.writes (b.keeps old)))
        ((b.unitsAt t (done ++ [summary])).flatMap (b.rows (b.keeps old)))
        (b.runUnit schedule s summary).2 := by
  have hmem : summary ∈ found := hperm.mem_iff.mp (by simp)
  have hsplit (u : LoadedUnit) (hu : u ∈ b.unit? t summary) :
      (b.unitsAt t done ++ u :: b.unitsAt t rest).Perm (b.unitsAt t found) := by
    have := hperm.filterMap (b.unit? t)
    rw [List.filterMap_append, List.filterMap_cons, Option.mem_def.mp hu] at this
    exact this
  have hunit (u : LoadedUnit) (hu : u ∈ b.unit? t summary) : u ∈ b.unitsAt t found :=
    List.mem_filterMap.mpr ⟨summary, hmem, hu⟩
  have hnames (u : LoadedUnit) (hu : u ∈ b.unit? t summary) :=
    List.nodup_append.mp <| List.flatMap_append ▸
      ((hsplit u hu).flatMap_right b.names).nodup_iff.mpr h.names
  rw [unitsAt_concat, List.flatMap_append, List.flatMap_append]
  refine hs.runUnit_spec hold h.output (h.apart.unit?_eq hs.same hmem) ?_ ?_ ?_ hschedule
  · intro u hu n hn
    refine ⟨h.isOutput hold (List.mem_cons_of_mem _ (List.mem_flatMap.mpr ⟨u, hunit u hu, hn⟩)),
      fun hwritten => ?_⟩
    obtain ⟨x, hx, rfl⟩ := List.mem_map.mp hwritten
    obtain ⟨u', hu', hx⟩ := List.mem_flatMap.mp hx
    exact (hnames u hu).2.2 _
      (List.mem_flatMap.mpr ⟨u', hu', fst_mem_names_of_mem_writes hx⟩) _
      (List.mem_flatMap.mpr ⟨u, List.mem_cons_self .., hn⟩) rfl
  · intro u hu
    have := (hnames u hu).2.1
    rw [List.flatMap_cons, List.nodup_append] at this
    exact this.1
  · intro u hu r hr heq
    obtain ⟨u', hu', hr⟩ := List.mem_flatMap.mp hr
    have := ((hsplit u hu).map LoadedUnit.stem).nodup_iff.mpr h.stems
    rw [List.map_append, List.nodup_append] at this
    exact this.2.2 _ (List.mem_map_of_mem hu') _ (by simp)
      ((unit_of_mem_rows hr).symm.trans heq)

end Orderly

/-! ### Another state of the output directory -/

section

variable {old old' : String → Option String}

/-- Changes in an output directory that is apart from the inputs do not change the units. -/
theorem IsApart.unitsAt_eq (h : b.IsApart t p found) (hsame : SameOutside p t t') :
    b.unitsAt t' found = b.unitsAt t found :=
  List.filterMap_congr fun _ hsummary => h.unit?_eq hsame hsummary

/-- An output directory that is apart from the inputs stays so when it changes. -/
theorem IsApart.of_sameOutside (h : b.IsApart t p found) (hsame : SameOutside p t t') :
    b.IsApart t' p found where
  summaries := by
    rw [hsame.visitedBy_eq h.summaries]
    exact h.summaries
  not_above := by
    rw [hsame.locate_eq h.summaries]
    exact h.not_above
  inputs summary hsummary unit hunit path hpath := by
    have hvisited := h.inputs summary hsummary unit hunit path hpath
    rw [hsame.visitedBy_eq hvisited]
    exact hvisited

/-- Whether a run is orderly does not depend on which files are in its output directory. -/
theorem Orderly.of_sameOutside (h : b.Orderly t p found) (hold : t.Contents p old)
    (hsame : SameOutside p t t') (hold' : t'.Contents p old') : b.Orderly t' p found := by
  have hunits := h.apart.unitsAt_eq hsame
  have hnames : b.namesAt t' found = b.namesAt t found := by rw [namesAt, namesAt, hunits]
  have hdirectory := hold.hasDirectory h.output hsame
  exact {
    valid := h.valid
    directory := (hsame.find_eq h.apart.summaries).trans h.directory
    discovered := (hsame.unitsBelow_eq h.directory h.apart.summaries h.apart.not_above).trans
      h.discovered
    output := hdirectory
    apart := h.apart.of_sameOutside hsame
    stems := hunits ▸ h.stems
    names := hnames ▸ h.names
    temporaries := hnames ▸ h.temporaries
    canSave := fun n hn => by
      have hname := h.isOutput hold (hnames ▸ hn)
      exact hold'.canSave hdirectory hname.isName hname.usable hname.temporary_usable }

end

/-! ### The whole run -/

/-- A run over summaries that have been found. -/
def runFound (b : Batch) (schedule : Schedule) (s : RunState) (found : List String) :
    Except Error BatchReport × RunState :=
  let pass := mapCarryIn (schedule.units found.length) (b.runUnit schedule) s found
  match b.saveLog pass.2 with
  | (.error e, s) => (.error e, s)
  | (.ok (), s) => (.ok (.total pass.1), s)

/-- A run is one over the summaries that are found. -/
theorem run_eq_runFound {schedule : Schedule} {log : ErrorLog}
    (h : t.unitsBelow b.inputs.summaries b.config.files.summarySuffix = .ok found) :
    b.run schedule ⟨t, log⟩ = b.runFound schedule ⟨t, log⟩ found := by
  rw [run, h]
  rfl

/-- What a run leaves behind, that found these files in its output directory. -/
structure Leaves (b : Batch) (t : FileTree) (p : Place) (found : List String)
    (old : String → Option String) (report : BatchReport) (s : RunState) : Prop where
  report_eq : report = .total ((b.unitsAt t found).map (b.report (b.keeps old)))
  reaches : Reaches t p (b.IsTemporary t found) old
    ((b.unitsAt t found).flatMap (b.writes (b.keeps old)) ++ [(logName, s.log.toJson.pretty)])
    ((b.unitsAt t found).flatMap (b.rows (b.keeps old))) s

/-- What is no unit adds nothing to a total. -/
theorem total_map_getD {α : Type} (g : α → Option BatchReport) (l : List α) :
    BatchReport.total (l.map fun a => (g a).getD {}) = BatchReport.total (l.filterMap g) := by
  have hfoldl (r : BatchReport) : (l.map fun a => (g a).getD {}).foldl BatchReport.add r =
      (l.filterMap g).foldl BatchReport.add r := by
    induction l generalizing r with
    | nil => rfl
    | cons a l ih => cases ha : g a <;> simp [ha, ih]
  exact hfoldl {}

/-- An orderly run comes to its end, in whatever order it is done, and leaves the same behind. -/
theorem Orderly.exists_run (h : b.Orderly t p found) {old : String → Option String}
    (hold : t.Contents p old) {schedule : Schedule} (hschedule : schedule.IsComplete) :
    ∃ report s, b.run schedule ⟨t, {}⟩ = (.ok report, s) ∧ b.Leaves t p found old report s := by
  obtain ⟨hreports, done, hdone, hreach⟩ := mapCarryIn_spec
    (I := fun done => Reaches t p (b.IsTemporary t found) old
      ((b.unitsAt t done).flatMap (b.writes (b.keeps old)))
      ((b.unitsAt t done).flatMap (b.rows (b.keeps old))))
    (hschedule.units found.length) id _
    (fun done summary rest s hperm hs => h.runUnit_spec hold hschedule hperm hs)
    (Reaches.start hold)
  rw [List.map_id] at hreports
  have hunits := hdone.filterMap (b.unit? t)
  have hreach := hreach.perm (hunits.flatMap_right _) (hunits.flatMap_right _)
  rw [run_eq_runFound h.discovered, runFound]
  generalize mapCarryIn (schedule.units found.length) (b.runUnit schedule) ⟨t, {}⟩ found = pass
    at hreports hreach
  have hlog : logName ∉ ((b.unitsAt t found).flatMap (b.writes (b.keeps old))).map Prod.fst := by
    intro hmem
    obtain ⟨x, hx, hname⟩ := List.mem_map.mp hmem
    exact logName_notMem_namesAt (hname ▸ fst_mem_namesAt hx)
  obtain ⟨tree, hsave, hfinal⟩ := hreach.save hold h.output
    (h.isOutput hold (List.mem_cons_self ..)) hlog pass.2.log.toJson.pretty
  rw [saveLog, errorsPath_eq_join, hsave]
  refine ⟨_, _, rfl, ?_, hfinal⟩
  rw [hreports, total_map_getD, unitsAt, List.map_filterMap]

end Batch

end InstrGraph

import InstrGraph.Proofs.Files.Save

/-!
# Writers side by side

Outputs may be saved side by side. Then the steps of saving come in any order: each writer stages
its output in a temporary file and afterwards moves it to its place. `Jobs.run` lets some writers of
one directory take their turns in a given order.

What a writer has done so far is seen at two names, that of its output and that of its temporary
file (`Consistent`). As long as no writer uses a name of another one (`Apart`), every turn keeps
this so (`Consistent.step`), and in the end all outputs are there (`Jobs.run_of_apart`). If a
temporary file is another one or an output, there is an order in which an output is lost
(`Jobs.exists_phase_run_of_temporary_eq`, `Jobs.read_run_of_temporary_eq_output`). For two writers
both together say when all goes well in every order (`pair_run_iff`).
-/

namespace InstrGraph

open InstrGraph.Path (IsName join)

namespace FileTree

variable {t t' : FileTree} {dir name : String} {p q : Place}

/-! ### Before the directory is there -/

/-- A file that can be written by a name in a directory tells that the directory is there. -/
theorem exists_hasDirectory_of_write {text : String} (hname : IsName name)
    (h : (t.write (join dir name) text).1 = .ok ()) : ∃ p, t.HasDirectory dir p := by
  rw [write] at h
  cases hlocate : t.locate (join dir name) with
  | error e => simp [hlocate] at h
  | ok place =>
    rw [locate] at hlocate
    split at hlocate
    case isTrue => cases hlocate
    case isFalse hnull =>
    split at hlocate
    case isTrue => cases hlocate
    case isFalse =>
    rw [startOf_join hname, stepsOf_join hname, walk_append] at hlocate
    cases hwalk : t.walk (startOf dir) (leadOf dir) with
    | error e => simp [hwalk, Except.bind] at hlocate
    | ok p =>
      rw [hwalk, Except.bind] at hlocate
      obtain ⟨q, henter, -⟩ := walk_cons_eq_ok.mp hlocate
      have hdirectory := entry?_of_enter henter
      refine ⟨p, ?_, ?_, hdirectory⟩
      · rw [Path.toList_join hname] at hnull
        have hbase : '\x00' ∉ Path.base dir := fun hmem => hnull (by simp [hmem])
        rcases Path.base_cases dir with ⟨rfl, -⟩ | ⟨cs, hcs, hdir | hdir⟩
        · simp
        · rw [hdir]
          exact fun hmem => hbase (hcs ▸ List.mem_append_left _ hmem)
        · rwa [hdir, ← hcs]
      · rcases stepsOf_cases dir with hsteps | hsteps
        · rwa [hsteps]
        · rw [hsteps]
          exact (walk_append_stays (k := 1) hdirectory).mpr hwalk

/-- The tree with the directory of the names in `dir`. -/
def withDirectory (t : FileTree) (dir : String) : FileTree := (t.makeParent (join dir "_")).2

/-- The directory that is made for a file does not depend on the name of the file. -/
theorem makeParent_join_eq (hname : IsName name) :
    t.makeParent (join dir name) = t.makeParent (join dir "_") := by
  have hline : IsName "_" := by decide
  rw [makeParent, makeParent, parent?_join hname, parent?_join hline]

/-- What can be saved can be saved just as well once its directory is made. -/
theorem CanSave.exists_hasDirectory (h : t.CanSave (join dir name)) (hname : IsName name) :
    ∃ p, (t.withDirectory dir).HasDirectory dir p ∧
      (t.withDirectory dir).CanSave (join dir name) ∧
      ∀ text, t.stage (join dir name) text = (t.withDirectory dir).stage (join dir name) text := by
  have hparent : t.makeParent (join dir name) = t.makeParent (join dir "_") :=
    makeParent_join_eq hname
  have hmade : t.makeParent (join dir name) = (.ok (), t.withDirectory dir) := by
    have hsave := h ""
    rw [save, stage] at hsave
    cases hresult : t.makeParent (join dir name) with
    | mk result t' =>
      rw [withDirectory, ← hparent, hresult]
      cases result with
      | error e => simp [hresult] at hsave
      | ok u => rfl
  have hwrite : ((t.withDirectory dir).write (temporaryPath (join dir name)) "").1 = .ok () := by
    have hsave := h ""
    rw [save, stage, hmade] at hsave
    cases hresult : (t.withDirectory dir).write (temporaryPath (join dir name)) "" with
    | mk result t' =>
      cases result with
      | error e => simp [hresult, Except.mapError] at hsave
      | ok u => rfl
  rw [temporaryPath_join hname] at hwrite
  obtain ⟨p, hdir⟩ := exists_hasDirectory_of_write (isName_temporaryName hname) hwrite
  have hstage (text : String) :
      t.stage (join dir name) text = (t.withDirectory dir).stage (join dir name) text := by
    rw [stage, stage, hmade, hdir.makeParent_join hname]
  refine ⟨p, hdir, fun text => ?_, hstage⟩
  rw [save, ← hstage]
  exact h text

/-! ### Turns -/

/-- How far a writer has come. -/
inductive Phase where
  | waiting
  | staged
  | finished (result : Except Error Unit)

namespace Phase

/-- How many turns a writer needs at most. -/
def turnsLeft : Phase → Nat
  | waiting => 2
  | staged => 1
  | finished _ => 0

/-- What is at the place of an output, if the writer is left alone. -/
def output (old : Option Entry) (text : String) : Phase → Option Entry
  | finished _ => some (.file text)
  | _ => old

/-- What is at the place of the temporary file. -/
def temporary (old : Option Entry) (text : String) : Phase → Option Entry
  | waiting => old
  | staged => some (.file text)
  | finished _ => none

/-- In no phase there is a directory where the output goes, if there was none before. -/
theorem output_ne_directory {old : Option Entry} (hold : old ≠ some .directory) (text : String)
    (phase : Phase) : phase.output old text ≠ some .directory := by
  cases phase with
  | waiting | staged => exact hold
  | finished result => simp [output]

/-- In no phase there is a directory where the temporary file goes, if there was none before. -/
theorem temporary_ne_directory {old : Option Entry} (hold : old ≠ some .directory) (text : String)
    (phase : Phase) : phase.temporary old text ≠ some .directory := by
  cases phase with
  | waiting => exact hold
  | staged | finished result => simp [temporary]

end Phase

/-- What some writers have to save. -/
structure Jobs (ι : Type) where
  path : ι → String
  text : ι → String

/-- The tree that the writers share, and how far each of them has come. -/
structure Progress (ι : Type) where
  tree : FileTree
  phase : ι → Phase

section

variable {ι : Type} [DecidableEq ι]

/-- A writer has changed the tree and is in another phase now. -/
def Progress.advance (s : Progress ι) (t : FileTree) (i : ι) (phase : Phase) : Progress ι :=
  ⟨t, Function.update s.phase i phase⟩

/-- Advancing a writer gives the tree that it has made. -/
@[simp] theorem Progress.tree_advance (s : Progress ι) (t : FileTree) (i : ι) (phase : Phase) :
    (s.advance t i phase).tree = t := rfl

/-- Advancing a writer does not touch the phases of the others. -/
theorem Progress.phase_advance (s : Progress ι) (t : FileTree) (i : ι) (phase : Phase) (j : ι) :
    (s.advance t i phase).phase j = if j = i then phase else s.phase j :=
  Function.update_apply ..

/-- The turn of a writer: it stages its output, or moves it to its place. A writer that is done
passes. -/
def Jobs.step (jobs : Jobs ι) (s : Progress ι) (i : ι) : Progress ι :=
  match s.phase i with
  | .waiting =>
    match s.tree.stage (jobs.path i) (jobs.text i) with
    | (.ok (), t) => s.advance t i .staged
    | (.error e, t) => s.advance t i (.finished (.error e))
  | .staged =>
    let (result, t) := s.tree.commit (jobs.path i)
    s.advance t i (.finished result)
  | .finished _ => s

/-- The writers take their turns. -/
def Jobs.turns (jobs : Jobs ι) (s : Progress ι) (order : List ι) : Progress ι :=
  order.foldl jobs.step s

/-- The writers take their turns, from the first one on. -/
def Jobs.run (jobs : Jobs ι) (t : FileTree) (order : List ι) : Progress ι :=
  jobs.turns ⟨t, fun _ => .waiting⟩ order

variable {jobs : Jobs ι} {s : Progress ι} {i : ι} {order : List ι}

/-- What a turn comes to. -/
theorem Jobs.step_cases (jobs : Jobs ι) (s : Progress ι) (i : ι) :
    (∃ result, s.phase i = .finished result ∧ jobs.step s i = s) ∨
      ∃ t phase, phase.turnsLeft < (s.phase i).turnsLeft ∧ jobs.step s i = s.advance t i phase := by
  rw [step.eq_def]
  cases hphase : s.phase i with
  | waiting =>
    right
    dsimp only
    split
    · exact ⟨_, _, by decide, rfl⟩
    · exact ⟨_, _, by simp [Phase.turnsLeft], rfl⟩
  | staged => exact .inr ⟨_, _, by simp [Phase.turnsLeft], rfl⟩
  | finished result => exact .inl ⟨result, rfl, rfl⟩

/-- A turn takes one off the turns that its writer has left. -/
theorem Jobs.turnsLeft_step (jobs : Jobs ι) (s : Progress ι) (i j : ι) :
    ((jobs.step s i).phase j).turnsLeft ≤ (s.phase j).turnsLeft - if i = j then 1 else 0 := by
  rcases jobs.step_cases s i with ⟨result, hphase, hstep⟩ | ⟨t, phase, hlt, hstep⟩
  · rw [hstep]
    by_cases hij : i = j
    · subst hij
      simp [hphase, Phase.turnsLeft]
    · simp [hij]
  · rw [hstep, s.phase_advance]
    by_cases hij : i = j
    · subst hij
      rw [if_pos rfl, if_pos rfl]
      omega
    · rw [if_neg (Ne.symm hij), if_neg hij]
      omega

/-- Turns take as many off the turns that a writer has left as are its own. -/
theorem Jobs.turnsLeft_turns (jobs : Jobs ι) (s : Progress ι) (order : List ι) (j : ι) :
    ((jobs.turns s order).phase j).turnsLeft ≤ (s.phase j).turnsLeft - order.count j := by
  induction order generalizing s with
  | nil => exact Nat.le_refl _
  | cons i order ih =>
    have hrest := ih (jobs.step s i)
    have hfirst := jobs.turnsLeft_step s i j
    rw [List.count_cons]
    show ((jobs.turns (jobs.step s i) order).phase j).turnsLeft ≤ _
    by_cases hij : i = j
    · rw [if_pos hij] at hfirst
      rw [if_pos (by simpa using hij)]
      omega
    · rw [if_neg hij] at hfirst
      rw [if_neg (by simpa using hij)]
      omega

/-- A writer that has had two turns is done. -/
theorem Jobs.exists_finished_run (jobs : Jobs ι) (t : FileTree) (h : 2 ≤ order.count i) :
    ∃ result, (jobs.run t order).phase i = .finished result := by
  have hleft : ((jobs.run t order).phase i).turnsLeft ≤ 2 - order.count i :=
    jobs.turnsLeft_turns ⟨t, fun _ => .waiting⟩ order i
  have hzero : ((jobs.run t order).phase i).turnsLeft = 0 := by omega
  cases hphase : (jobs.run t order).phase i with
  | waiting | staged =>
    rw [hphase] at hzero
    simp [Phase.turnsLeft] at hzero
  | finished result => exact ⟨result, rfl⟩

/-- A writer that has two turns in a row saves its output. -/
theorem Jobs.turns_twice (hphase : s.phase i = .waiting) :
    jobs.turns s [i, i] =
      s.advance (s.tree.save (jobs.path i) (jobs.text i)).2 i
        (.finished (s.tree.save (jobs.path i) (jobs.text i)).1) := by
  show jobs.step (jobs.step s i) i = _
  rw [save]
  cases hstage : s.tree.stage (jobs.path i) (jobs.text i) with
  | mk result t =>
    cases result with
    | error e =>
      have hstep : jobs.step s i = s.advance t i (.finished (.error e)) := by
        rw [step.eq_def, hphase]
        dsimp only
        rw [hstage]
      rw [hstep, step.eq_def, s.phase_advance, if_pos rfl]
    | ok u =>
      have hstep : jobs.step s i = s.advance t i .staged := by
        rw [step.eq_def, hphase]
        dsimp only
        rw [hstage]
      rw [hstep, step.eq_def, s.phase_advance, if_pos rfl]
      simp [Progress.advance]

/-! ### Writers of one directory -/

/-- No writer uses the name of another one, be it for its output or for its temporary file. -/
structure Apart (name : ι → String) : Prop where
  names : ∀ i j, i ≠ j → name i ≠ name j
  temporaries : ∀ i j, i ≠ j → temporaryName (name i) ≠ temporaryName (name j)
  outputs : ∀ i j, temporaryName (name i) ≠ name j

/-- What the writers have to save can be saved in a directory that is there. -/
structure Prepared (t : FileTree) (dir : String) (p : Place) (name : ι → String) : Prop where
  directory : t.HasDirectory dir p
  isName : ∀ i, IsName (name i)
  output : ∀ i, t.CanWrite p (name i)
  temporary : ∀ i, t.CanWrite p (temporaryName (name i))

/-- Every writer has done what belongs to its phase, and nothing has gone wrong. -/
structure Consistent (t : FileTree) (p : Place) (name : ι → String) (text : ι → String)
    (s : Progress ι) : Prop where
  output : ∀ i, s.tree.entry? (p ++ [name i]) =
    (s.phase i).output (t.entry? (p ++ [name i])) (text i)
  temporary : ∀ i, s.tree.entry? (p ++ [temporaryName (name i)]) =
    (s.phase i).temporary (t.entry? (p ++ [temporaryName (name i)])) (text i)
  elsewhere : ∀ q, (∀ i, q ≠ p ++ [name i] ∧ q ≠ p ++ [temporaryName (name i)]) →
    s.tree.entry? q = t.entry? q
  succeeds : ∀ i result, s.phase i = .finished result → result = .ok ()

namespace Consistent

variable {name : ι → String} {text : ι → String}

omit [DecidableEq ι] in
/-- In the beginning, everything is as it should be. -/
theorem start (t : FileTree) (p : Place) (name text : ι → String) :
    Consistent t p name text ⟨t, fun _ => .waiting⟩ where
  output _ := rfl
  temporary _ := rfl
  elsewhere _ _ := rfl
  succeeds _ _ h := by cases h

variable (h : Consistent t p name text s) (hready : Prepared t dir p name)

include h hready

omit [DecidableEq ι] in
/-- The writers find their names as usable as they were. -/
theorem prepared : Prepared s.tree dir p name where
  directory := by
    refine hready.directory.mono fun q hq => ?_
    rw [h.elsewhere q fun i => ⟨?_, ?_⟩, hq]
    · rintro rfl
      exact (hready.output i).2 hq
    · rintro rfl
      exact (hready.temporary i).2 hq
  isName := hready.isName
  output i := by
    refine ⟨(hready.output i).1, ?_⟩
    rw [h.output]
    exact Phase.output_ne_directory (hready.output i).2 _ _
  temporary i := by
    refine ⟨(hready.temporary i).1, ?_⟩
    rw [h.temporary]
    exact Phase.temporary_ne_directory (hready.temporary i).2 _ _

omit hready in
/-- A writer that changes its own two names as its phase says gets in nobody's way. -/
theorem advance (hapart : Apart name) {phase : Phase} {i : ι}
    (houtput : t'.entry? (p ++ [name i]) =
      phase.output (t.entry? (p ++ [name i])) (text i))
    (htemporary : t'.entry? (p ++ [temporaryName (name i)]) =
      phase.temporary (t.entry? (p ++ [temporaryName (name i)])) (text i))
    (hrest : ∀ q, q ≠ p ++ [name i] → q ≠ p ++ [temporaryName (name i)] →
      t'.entry? q = s.tree.entry? q)
    (hok : ∀ result, phase = .finished result → result = .ok ()) :
    Consistent t p name text (s.advance t' i phase) where
  output j := by
    rw [s.tree_advance, s.phase_advance]
    by_cases hji : j = i
    · subst hji
      rw [if_pos rfl, houtput]
    · rw [if_neg hji, ← h.output]
      refine hrest _ (fun heq => hapart.names j i hji (concat_inj.mp heq)) fun heq => ?_
      exact hapart.outputs i j (concat_inj.mp heq).symm
  temporary j := by
    rw [s.tree_advance, s.phase_advance]
    by_cases hji : j = i
    · subst hji
      rw [if_pos rfl, htemporary]
    · rw [if_neg hji, ← h.temporary]
      refine hrest _ (fun heq => hapart.outputs j i (concat_inj.mp heq)) fun heq => ?_
      exact hapart.temporaries j i hji (concat_inj.mp heq)
  elsewhere q hq := (hrest q (hq i).1 (hq i).2).trans (h.elsewhere q hq)
  succeeds j result hj := by
    rw [s.phase_advance] at hj
    by_cases hji : j = i
    · rw [if_pos hji] at hj
      exact hok result hj
    · rw [if_neg hji] at hj
      exact h.succeeds j result hj

/-- One turn of one writer. -/
theorem step (hapart : Apart name) (hpath : ∀ i, jobs.path i = join dir (name i))
    (htext : jobs.text = text) (i : ι) : Consistent t p name text (jobs.step s i) := by
  have hnow := h.prepared hready
  have hne : p ++ [name i] ≠ p ++ [temporaryName (name i)] := fun heq =>
    hapart.outputs i i (concat_inj.mp heq).symm
  cases hphase : s.phase i with
  | waiting =>
    have hstep : jobs.step s i = s.advance (s.tree.staged p (name i) (text i)) i .staged := by
      rw [Jobs.step, hphase]
      dsimp only
      rw [hpath, htext, hnow.directory.stage_join_of_canWrite (hnow.isName i) (hnow.temporary i)]
    rw [hstep]
    refine h.advance hapart ?_ ?_ (fun q _ htmp => ?_) (by rintro result ⟨⟩)
    · rw [entry?_staged, if_neg hne, h.output, hphase]
      rfl
    · rw [entry?_staged, if_pos rfl, Phase.temporary]
    · rw [entry?_staged, if_neg htmp]
  | staged =>
    have hfile : s.tree.entry? (p ++ [temporaryName (name i)]) = some (.file (text i)) := by
      rw [h.temporary, hphase, Phase.temporary]
    have hstep : jobs.step s i = s.advance
        ((s.tree.erase (p ++ [temporaryName (name i)])).set (p ++ [name i]) (.file (text i))) i
        (.finished (.ok ())) := by
      rw [Jobs.step, hphase]
      dsimp only
      rw [hpath, hnow.directory.commit_join_of_file (hnow.isName i) (hnow.temporary i).1
        (hnow.output i) hfile]
    rw [hstep]
    refine h.advance hapart ?_ ?_ (fun q hq htmp => ?_) fun result hresult => ?_
    · rw [entry?_set (by simp), if_pos rfl, Phase.output]
    · rw [entry?_set (by simp), if_neg (Ne.symm hne), entry?_erase (by simp), if_pos rfl,
        Phase.temporary]
    · rw [entry?_set (by simp), if_neg hq, entry?_erase (by simp), if_neg htmp]
    · cases hresult
      rfl
  | finished result =>
    have hstep : jobs.step s i = s := by rw [Jobs.step, hphase]
    rwa [hstep]

/-- Any number of turns. -/
theorem turns (hapart : Apart name) (hpath : ∀ i, jobs.path i = join dir (name i))
    (htext : jobs.text = text) (order : List ι) :
    Consistent t p name text (jobs.turns s order) := by
  induction order generalizing s with
  | nil => exact h
  | cons i order ih => exact ih (h.step hready hapart hpath htext i)

end Consistent

variable {name : ι → String}

omit [DecidableEq ι] in
/-- What each writer can save by itself is prepared as soon as the directory is made. -/
theorem exists_prepared [Nonempty ι] (hname : ∀ i, IsName (name i))
    (hsave : ∀ i, t.CanSave (join dir (name i))) :
    ∃ p, Prepared (t.withDirectory dir) dir p name := by
  obtain ⟨i⟩ := ‹Nonempty ι›
  obtain ⟨p, hdir, -, -⟩ := (hsave i).exists_hasDirectory (hname i)
  have hwrite (j : ι) : (t.withDirectory dir).CanWrite p (temporaryName (name j)) ∧
      (t.withDirectory dir).CanWrite p (name j) := by
    obtain ⟨-, -, hj, -⟩ := (hsave j).exists_hasDirectory (hname j)
    exact (hdir.canSave_join_iff (hname j)).mp hj
  exact ⟨p, hdir, hname, fun j => (hwrite j).2, fun j => (hwrite j).1⟩

/-- The first turn makes the directory, whoever takes it. -/
theorem Jobs.run_withDirectory (hname : ∀ i, IsName (name i))
    (hpath : ∀ i, jobs.path i = join dir (name i)) (hsave : ∀ i, t.CanSave (join dir (name i)))
    (horder : order ≠ []) : jobs.run t order = jobs.run (t.withDirectory dir) order := by
  obtain ⟨i, rest, rfl⟩ := List.exists_cons_of_ne_nil horder
  have hstep : jobs.step ⟨t, fun _ => .waiting⟩ i =
      jobs.step ⟨t.withDirectory dir, fun _ => .waiting⟩ i := by
    obtain ⟨-, -, -, hstage⟩ := (hsave i).exists_hasDirectory (hname i)
    rw [step, step]
    dsimp only
    rw [hpath, hstage]
    rfl
  show jobs.turns (jobs.step ⟨t, fun _ => .waiting⟩ i) rest =
    jobs.turns (jobs.step ⟨t.withDirectory dir, fun _ => .waiting⟩ i) rest
  rw [hstep]

/-- Writers that use no names of each other get all their outputs saved, whatever the order of
their turns is, and leave no temporary file. -/
theorem Jobs.run_of_apart (hready : Prepared t dir p name) (hapart : Apart name)
    (hpath : ∀ i, jobs.path i = join dir (name i)) (horder : ∀ i, 2 ≤ order.count i) (i : ι) :
    (jobs.run t order).phase i = .finished (.ok ()) ∧
      (jobs.run t order).tree.read (jobs.path i) = .ok (jobs.text i) ∧
      (jobs.run t order).tree.leadsSomewhere (temporaryPath (jobs.path i)) = false := by
  have hend : Consistent t p name jobs.text (jobs.run t order) :=
    (Consistent.start t p name jobs.text).turns hready hapart hpath rfl order
  have hnow := hend.prepared hready
  obtain ⟨result, hphase⟩ := jobs.exists_finished_run t (horder i)
  obtain rfl := hend.succeeds i result hphase
  refine ⟨hphase, ?_, ?_⟩
  · rw [hpath, hnow.directory.read_join (hnow.isName i), hend.output, hphase]
    exact ⟨(hready.output i).1, rfl⟩
  · rw [hpath, temporaryPath_join (hnow.isName i),
      hnow.directory.leadsSomewhere_join (isName_temporaryName (hnow.isName i)), hend.temporary,
      hphase, Phase.temporary]
    simp

/-! ### Orders in which an output is lost -/

/-- What can be written can still be written when a temporary file is there. -/
theorem CanWrite.staged {m : String} (h : t.CanWrite p m) (n text : String) :
    (t.staged p n text).CanWrite p m := by
  refine ⟨h.1, ?_⟩
  rw [entry?_staged]
  split
  · simp
  · exact h.2

/-- What can be written can still be written when a file is saved. -/
theorem CanWrite.saved {m : String} (h : t.CanWrite p m) (n text : String) :
    (t.saved p n text).CanWrite p m := by
  refine ⟨h.1, ?_⟩
  rw [entry?_saved]
  split
  · simp
  · split
    · simp
    · exact h.2

omit [DecidableEq ι] in
/-- What is prepared stays so when a temporary file is written. -/
theorem Prepared.staged (h : Prepared t dir p name) (i : ι) (text : String) :
    Prepared (t.staged p (name i) text) dir p name where
  directory := h.directory.hasDirectory_staged (h.temporary i) text
  isName := h.isName
  output j := (h.output j).staged _ _
  temporary j := (h.temporary j).staged _ _

omit [DecidableEq ι] in
/-- What is prepared stays so when a file is saved. -/
theorem Prepared.saved (h : Prepared t dir p name) (i : ι) (text : String) :
    Prepared (t.saved p (name i) text) dir p name where
  directory := by
    refine h.directory.mono fun q hq => ?_
    rw [entry?_saved, if_neg, if_neg, hq]
    · rintro rfl
      exact (h.temporary i).2 hq
    · rintro rfl
      exact (h.output i).2 hq
  isName := h.isName
  output j := (h.output j).saved _ _
  temporary j := (h.temporary j).saved _ _

omit [DecidableEq ι] in
/-- What is prepared for a writer can be saved at once. -/
theorem Prepared.save (h : Prepared t dir p name) (i : ι) (text : String) :
    t.save (join dir (name i)) text = (.ok (), t.saved p (name i) text) :=
  h.directory.save_join_of_canSave (h.isName i)
    ((h.directory.canSave_join_iff (h.isName i)).mpr ⟨h.temporary i, h.output i⟩) text

variable {j : ι}

/-- If the temporary file of one writer is the output of another one, that output is lost when the
first one takes its turns after it. -/
theorem Jobs.read_run_of_temporary_eq_output (hready : Prepared t dir p name)
    (hpath : ∀ i, jobs.path i = join dir (name i)) (hij : i ≠ j)
    (htmp : temporaryName (name i) = name j) (text : String) :
    (jobs.run t [j, j, i, i]).tree.read (jobs.path j) ≠ .ok text := by
  let start : Progress ι := ⟨t, fun _ => .waiting⟩
  have hfirst : jobs.turns start [j, j] =
      start.advance (t.saved p (name j) (jobs.text j)) j (.finished (.ok ())) := by
    rw [turns_twice rfl, hpath, hready.save]
  have hready' := hready.saved j (jobs.text j)
  have hwaiting : (jobs.turns start [j, j]).phase i = .waiting := by
    rw [hfirst, Progress.phase_advance, if_neg hij]
  have hrun : (jobs.run t [j, j, i, i]).tree =
      (t.saved p (name j) (jobs.text j)).saved p (name i) (jobs.text i) := by
    show (jobs.turns (jobs.turns start [j, j]) [i, i]).tree = _
    rw [turns_twice hwaiting, hfirst, Progress.tree_advance, Progress.tree_advance, hpath,
      hready'.save]
  have hready'' := hready'.saved i (jobs.text i)
  rw [hrun, hpath, Ne, hready''.directory.read_join (hready.isName j), entry?_saved, if_neg, ← htmp,
    if_pos rfl]
  · simp
  · exact fun heq => temporaryName_ne (name i) (htmp.trans (concat_inj.mp heq))

/-- If two writers have one temporary file, one of them fails when the other one takes its turns
between those of the first. -/
theorem Jobs.exists_phase_run_of_temporary_eq (hready : Prepared t dir p name)
    (hpath : ∀ i, jobs.path i = join dir (name i)) (hij : name i ≠ name j)
    (htmp : temporaryName (name i) = temporaryName (name j)) :
    ∃ e, (jobs.run t [i, j, j, i]).phase i = .finished (.error e) := by
  have hne : i ≠ j := fun heq => hij (congrArg name heq)
  let start : Progress ι := ⟨t, fun _ => .waiting⟩
  have hfirst : jobs.step start i =
      start.advance (t.staged p (name i) (jobs.text i)) i .staged := by
    rw [step]
    dsimp only [start]
    rw [hpath, hready.directory.stage_join_of_canWrite (hready.isName i) (hready.temporary i)]
  have hready' := hready.staged i (jobs.text i)
  have hwaiting : (jobs.step start i).phase j = .waiting := by
    rw [hfirst, Progress.phase_advance, if_neg (Ne.symm hne)]
  have hbetween : jobs.turns (jobs.step start i) [j, j] =
      (jobs.step start i).advance
        ((t.staged p (name i) (jobs.text i)).saved p (name j) (jobs.text j)) j
        (.finished (.ok ())) := by
    rw [turns_twice hwaiting, hfirst, Progress.tree_advance, hpath, hready'.save]
  have hready'' := hready'.saved j (jobs.text j)
  have hgone : entry? ((t.staged p (name i) (jobs.text i)).saved p (name j) (jobs.text j))
      (p ++ [temporaryName (name i)]) = none := by
    rw [entry?_saved, htmp, if_neg fun heq => temporaryName_ne (name j) (concat_inj.mp heq),
      if_pos rfl]
  obtain ⟨e, he⟩ := hready''.directory.exists_commit_join_eq_error_of_none (hready.isName i)
    (hready.temporary i).1 (hready''.output i) hgone
  refine ⟨e, ?_⟩
  have hstaged : (jobs.turns (jobs.step start i) [j, j]).phase i = .staged := by
    rw [hbetween, Progress.phase_advance, if_neg hne, hfirst, Progress.phase_advance, if_pos rfl]
  show (jobs.step (jobs.turns (jobs.step start i) [j, j]) i).phase i = _
  rw [step, hstaged]
  dsimp only
  rw [hbetween, Progress.tree_advance, hpath, he, Progress.phase_advance, if_pos rfl]

end

/-! ### Two writers -/

/-- The writers of two outputs. -/
inductive Writer where
  | first
  | second
  deriving DecidableEq, Repr

/-- What belongs to a writer. -/
def Writer.pick {α : Type} (x y : α) : Writer → α
  | first => x
  | second => y

instance : Nonempty Writer := ⟨.first⟩

/-- What holds of two writers holds of the first and of the second one. -/
theorem Writer.forall_iff {P : Writer → Prop} : (∀ i, P i) ↔ P first ∧ P second :=
  ⟨fun h => ⟨h first, h second⟩, fun h i => by cases i with
    | first => exact h.1
    | second => exact h.2⟩

/-- Two texts that are to be saved at two paths. -/
def Jobs.pair (pathA textA pathB textB : String) : Jobs Writer :=
  ⟨Writer.pick pathA pathB, Writer.pick textA textB⟩

/-- Both outputs are there, and no temporary file is. -/
structure BothSaved (pathA textA pathB textB : String) (s : Progress Writer) : Prop where
  phase : ∀ i, s.phase i = .finished (.ok ())
  readA : s.tree.read pathA = .ok textA
  readB : s.tree.read pathB = .ok textB
  goneA : s.tree.leadsSomewhere (temporaryPath pathA) = false
  goneB : s.tree.leadsSomewhere (temporaryPath pathB) = false

/-- No output and no temporary file of two outputs is a temporary file of the other one. -/
structure TemporariesApart (pathA pathB : String) : Prop where
  temporaries : temporaryPath pathA ≠ temporaryPath pathB
  outputB : temporaryPath pathA ≠ pathB
  outputA : temporaryPath pathB ≠ pathA

/-- The temporary files of two names in a directory keep apart if they differ from each other and
from the other name. -/
theorem temporariesApart_join_iff {m n : String} (hm : IsName m) (hn : IsName n) :
    TemporariesApart (join dir m) (join dir n) ↔ temporaryName m ≠ temporaryName n ∧
      temporaryName m ≠ n ∧ temporaryName n ≠ m := by
  constructor
  · rintro ⟨htmp, hb, ha⟩
    rw [temporaryPath_join hm] at htmp hb
    rw [temporaryPath_join hn] at htmp ha
    exact ⟨fun heq => htmp (heq ▸ rfl), fun heq => hb (heq ▸ rfl), fun heq => ha (heq ▸ rfl)⟩
  · rintro ⟨htmp, hb, ha⟩
    refine ⟨?_, ?_, ?_⟩
    · rw [temporaryPath_join hm, temporaryPath_join hn]
      exact fun heq => htmp ((Path.join_inj (isName_temporaryName hm)
        (isName_temporaryName hn)).mp heq)
    · rw [temporaryPath_join hm]
      exact fun heq => hb ((Path.join_inj (isName_temporaryName hm) hn).mp heq)
    · rw [temporaryPath_join hn]
      exact fun heq => ha ((Path.join_inj (isName_temporaryName hn) hm).mp heq)

/-- Two writers of different names are apart if their temporary files keep apart. -/
theorem apart_pick_iff {m n : String} (hne : m ≠ n) : Apart (Writer.pick m n) ↔
    temporaryName m ≠ temporaryName n ∧ temporaryName m ≠ n ∧ temporaryName n ≠ m := by
  constructor
  · intro h
    exact ⟨h.temporaries .first .second (by decide), h.outputs .first .second,
      h.outputs .second .first⟩
  · rintro ⟨htmp, hb, ha⟩
    refine ⟨fun i j hij => ?_, fun i j hij => ?_, fun i j => ?_⟩
    · cases i <;> cases j
      · exact absurd rfl hij
      · exact hne
      · exact hne.symm
      · exact absurd rfl hij
    · cases i <;> cases j
      · exact absurd rfl hij
      · exact htmp
      · exact htmp.symm
      · exact absurd rfl hij
    · cases i <;> cases j
      · exact temporaryName_ne m
      · exact hb
      · exact ha
      · exact temporaryName_ne n

/-- Two outputs of a directory that can be saved each by itself are saved side by side in every
order of turns, just if their temporary files keep apart. -/
theorem pair_run_iff {m n : String} (hm : IsName m) (hn : IsName n) (hne : m ≠ n)
    (hsaveA : t.CanSave (join dir m)) (hsaveB : t.CanSave (join dir n)) :
    (∀ textA textB (order : List Writer), order.count .first = 2 → order.count .second = 2 →
      BothSaved (join dir m) textA (join dir n) textB
        ((Jobs.pair (join dir m) textA (join dir n) textB).run t order)) ↔
      TemporariesApart (join dir m) (join dir n) := by
  have hname : ∀ i, IsName (Writer.pick m n i) := Writer.forall_iff.mpr ⟨hm, hn⟩
  have hsave : ∀ i, t.CanSave (join dir (Writer.pick m n i)) :=
    Writer.forall_iff.mpr ⟨hsaveA, hsaveB⟩
  have hpath (textA textB : String) (i : Writer) :
      (Jobs.pair (join dir m) textA (join dir n) textB).path i = join dir (Writer.pick m n i) := by
    cases i <;> rfl
  obtain ⟨p, hready⟩ := exists_prepared hname hsave
  have hstart (textA textB : String) {order : List Writer} (horder : order ≠ []) :=
    Jobs.run_withDirectory hname (hpath textA textB) hsave horder
  rw [temporariesApart_join_iff hm hn]
  constructor
  · intro h
    refine ⟨fun htmp => ?_, fun htmp => ?_, fun htmp => ?_⟩
    · have hsaved := h "" "" [.first, .second, .second, .first] rfl rfl
      rw [hstart "" "" (by simp)] at hsaved
      have hfirst : Writer.pick m n .first ≠ Writer.pick m n .second := hne
      obtain ⟨e, he⟩ := Jobs.exists_phase_run_of_temporary_eq hready (hpath "" "") hfirst htmp
      have hphase := he.symm.trans (hsaved.phase .first)
      cases hphase
    · have hsaved := h "" "" [.second, .second, .first, .first] rfl rfl
      rw [hstart "" "" (by simp)] at hsaved
      have hfirst : temporaryName (Writer.pick m n .first) = Writer.pick m n .second := htmp
      exact Jobs.read_run_of_temporary_eq_output hready (hpath "" "") (by decide) hfirst ""
        hsaved.readB
    · have hsaved := h "" "" [.first, .first, .second, .second] rfl rfl
      rw [hstart "" "" (by simp)] at hsaved
      have hsecond : temporaryName (Writer.pick m n .second) = Writer.pick m n .first := htmp
      exact Jobs.read_run_of_temporary_eq_output hready (hpath "" "") (by decide) hsecond ""
        hsaved.readA
  · intro h textA textB order hfirst hsecond
    have hne' : order ≠ [] := by
      rintro rfl
      simp at hfirst
    rw [hstart textA textB hne']
    have hall := Jobs.run_of_apart hready ((apart_pick_iff hne).mpr h) (hpath textA textB)
      (Writer.forall_iff.mpr ⟨Nat.le_of_eq hfirst.symm, Nat.le_of_eq hsecond.symm⟩)
    obtain ⟨-, hreadA, hgoneA⟩ := hall .first
    obtain ⟨-, hreadB, hgoneB⟩ := hall .second
    exact ⟨fun i => (hall i).1, hreadA, hreadB, hgoneA, hgoneB⟩

end FileTree

end InstrGraph

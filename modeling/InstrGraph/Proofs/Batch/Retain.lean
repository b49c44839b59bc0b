import InstrGraph.Proofs.Batch.Orderly

/-!
# What runs leave alone

A file in the output directory is left alone by a run that is to leave alone what is there, and by
all further ones, unless its name is that of the log or of a temporary file (`IsLasting`). Nothing
is asked of the run but that its configuration is valid: its outputs may get in each other's way,
and saving them may fail.

* `Retains.run`: a run retains the files of lasting names that it has to keep. Each step of it is a
  lemma of its own, down to the saving of an output (`Retains.save`).
* `History`: runs into one directory, one after another, with anything but that directory edited
  in between. `History.exists_contents` carries `Retains.run` through it.
-/

namespace InstrGraph

open FileTree (Contents HasDirectory IsUsable SameOutside temporaryName)
open InstrGraph.Path (IsName join)

/-- The name of a file that runs have no reason to take away: not that of the log or of a temporary
file. -/
structure IsLasting (name : String) : Prop where
  ne_log : name ≠ logName
  not_temporary : ∀ m, temporaryName m ≠ name

/-- The canonical functions of a unit have a lasting name. -/
theorem isLasting_canonicalName (stem : String) : IsLasting (canonicalName stem) where
  ne_log heq := by
    have hunderscore := underscore_mem_canonicalName stem
    rw [heq] at hunderscore
    exact absurd hunderscore (by decide)
  not_temporary m := by
    refine FileTree.temporaryName_ne_of_getLast? ?_ m
    rw [canonicalName, String.toList_append, List.getLast?_append]
    exact fun heq => absurd heq (by simp)

/-- No canonical function comes of a function for which none is wanted. -/
theorem Batch.canonical?_runFunction_false (b : Batch) (stem : String) (metadata : Metadata)
    (s : RunState) (f : Function) :
    (b.runFunction stem metadata false s f).1.canonical? = none := by
  simp only [Batch.runFunction]
  split
  · rfl
  · split
    · rfl
    · split
      · rfl
      · split <;> rfl

/-- What a run leaves behind is what its units leave behind, with the log. -/
theorem Batch.snd_run {b : Batch} {schedule : Schedule} {s : RunState} {found : List String}
    (h : s.tree.unitsBelow b.inputs.summaries b.config.files.summarySuffix = .ok found) :
    (b.run schedule s).2 =
      (b.saveLog (mapCarryIn (schedule.units found.length) (b.runUnit schedule) s found).2).2 := by
  rw [Batch.run, h]
  dsimp only
  split <;> rename_i heq <;> rw [heq]

/-- The files of some names are the same as before, and so is all that is by the side of the
directory, which still holds nothing but files. -/
structure Retains (names : String → Prop) (p : Place) (old : String → Option String)
    (t t' : FileTree) : Prop where
  same : SameOutside p t t'
  contents : ∃ now, t'.Contents p now ∧ ∀ n, names n → now n = old n

namespace Retains

variable {b : Batch} {names : String → Prop} {p : Place} {old : String → Option String}
  {t : FileTree} {schedule : Schedule}

/-- A tree retains its own files. -/
theorem refl (hold : t.Contents p old) : Retains names p old t t :=
  ⟨SameOutside.refl p t, old, hold, fun _ _ => rfl⟩

section

variable {s : RunState} (h : Retains names p old t s.tree)
  (hlasting : ∀ n, names n → IsLasting n) (hold : t.Contents p old)
  (hdir : t.HasDirectory b.inputs.outDir p)

include h hold hdir

/-- The output directory is there all the time. -/
theorem hasDirectory : s.tree.HasDirectory b.inputs.outDir p := hold.hasDirectory hdir h.same

/-- What has to be kept is seen to be there. -/
theorem isKept {m : String} (hname : IsName m) (husable : IsUsable m) (hm : names m)
    (hkeeps : b.keeps old m = true) : b.isKept s.tree (join b.inputs.outDir m) = true := by
  obtain ⟨now, hnow, heq⟩ := h.contents
  rw [Batch.isKept, hnow.isSome_iff (h.hasDirectory hold hdir) hname husable, heq m hm]
  exact hkeeps

include hlasting

/-- Saving under another name retains the files. -/
theorem save {m : String} (hname : IsName m) (hm : names m → ¬ IsUsable m) (text : String) :
    Retains names p old t (s.tree.save (join b.inputs.outDir m) text).2 := by
  obtain ⟨now, hnow, heq⟩ := h.contents
  have hdir := h.hasDirectory hold hdir
  obtain ⟨now', hnow', heq'⟩ := hnow.exists_save hdir hname text
  refine ⟨h.same.trans (hdir.sameOutside_save hname text), now', hnow', fun n hn => ?_⟩
  rw [heq' n (fun hnm => hnm ▸ hm (hnm ▸ hn)) ((hlasting n hn).not_temporary m).symm, heq n hn]

/-! ### The steps of a run -/

/-- The work on a function retains the files, if its graph is left alone or has another name. -/
theorem runFunction (task : Task) {want : Bool} (hname : IsName (b.graphOf task))
    (hkeeps : names (b.graphOf task) → b.keeps old (b.graphOf task) = true) :
    Retains names p old t
      (b.runFunction task.stem task.metadata want s task.function).2.tree := by
  simp only [Batch.runFunction, b.graphPath_task, b.processFunction_task]
  cases hk : b.isKept s.tree (join b.inputs.outDir (b.graphOf task)) with
  | true =>
    cases want with
    | false => exact h
    | true => cases b.result task <;> exact h
  | false =>
    simp only [Bool.false_and, Bool.false_eq_true, if_false]
    cases b.result task with
    | error e => exact h
    | ok output =>
      have hm (hmem : names (b.graphOf task)) : ¬ IsUsable (b.graphOf task) := fun husable => by
        simp [h.isKept hold hdir hname husable hmem (hkeeps hmem)] at hk
      have hsave := h.save hlasting hold hdir hname hm (b.textOf output.document.toJson)
      dsimp only
      split
      · rename_i heq
        rwa [heq] at hsave
      · rename_i heq
        rwa [heq] at hsave

/-- Saving canonical functions retains the files, if there are none to save or they have another
name. -/
theorem saveCanonical {stem : String} {forms : List CanonicalFunction}
    (hname : IsName (canonicalName stem))
    (hforms : names (canonicalName stem) → IsUsable (canonicalName stem) → forms = []) :
    Retains names p old t (b.saveCanonical stem s forms).2.tree := by
  rw [Batch.saveCanonical]
  split
  · exact h
  · rename_i hne
    have hm (hmem : names (canonicalName stem)) : ¬ IsUsable (canonicalName stem) := fun husable =>
      hne (by rw [hforms hmem husable]; rfl)
    have hsave := h.save hlasting hold hdir hname hm
      (b.textOf (.array (forms.map CanonicalFunction.toJson)))
    rw [canonicalPath_eq_join]
    dsimp only
    split
    · rename_i heq
      rwa [heq] at hsave
    · rename_i heq
      rwa [heq] at hsave

/-- The work on a unit, whatever it is at that time. -/
theorem runUnit (hvalid : b.config.validate = .ok ()) {summary : String}
    (hkeeps : ∀ u ∈ b.unit? s.tree summary, ∀ m ∈ b.names u, names m → b.keeps old m = true) :
    Retains names p old t (b.runUnit schedule s summary).2.tree := by
  cases hu : b.unit? s.tree summary with
  | none =>
    rw [Batch.runUnit_of_none hu]
    exact h
  | some u =>
    rw [hu] at hkeeps
    cases hcontent : u.content with
    | error e =>
      rw [Batch.runUnit_of_error hu hcontent]
      exact h
    | ok content =>
      obtain ⟨functions, metadata⟩ := content
      rw [Batch.runUnit_of_ok hu hcontent]
      dsimp only
      have hfunctions := mapCarryIn_preserves
        (f := b.runFunction u.stem metadata (b.config.files.writeCanonical &&
          !b.isKept s.tree (canonicalPath b.inputs.outDir u.stem)))
        (I := fun s => Retains names p old t s.tree)
        (fun f (hf : f ∈ functions) s hs => by
          have hmem : b.graphOf ⟨u.stem, metadata, f⟩ ∈ b.names u := by
            refine List.mem_append_left _ (List.mem_map_of_mem ?_)
            rw [LoadedUnit.tasks, hcontent]
            exact List.mem_map_of_mem hf
          exact hs.runFunction hlasting hold hdir ⟨u.stem, metadata, f⟩
            (Batch.isName_of_mem_names hvalid hu hmem) (hkeeps u rfl _ hmem))
        (schedule.functions summary functions.length) h
      refine hfunctions.saveCanonical hlasting hold hdir ?_ ?_
      · obtain ⟨paths, hpaths, rfl⟩ := Option.map_eq_some_iff.mp hu
        exact isName_canonicalName (UnitPaths.noSlash_of_stem? (UnitPaths.stem?_of_resolve? hpaths))
      · intro hmem husable
        rw [List.filterMap_eq_nil_iff]
        cases hwant : b.config.files.writeCanonical &&
          !b.isKept s.tree (canonicalPath b.inputs.outDir u.stem) with
        | false =>
          exact forall_mapCarryIn (P := fun (o : FunctionOutcome) => o.canonical? = none)
            (b.canonical?_runFunction_false u.stem metadata) _ s functions
        | true =>
          -- what is wanted is not there, but this one has to be kept
          rw [Bool.and_eq_true, Bool.not_eq_true'] at hwant
          have hin : canonicalName u.stem ∈ b.names u :=
            List.mem_append_right _ (by simp [Batch.canonicalOf, hwant.1])
          have hkept := h.isKept hold hdir (Batch.isName_of_mem_names hvalid hu hin) husable hmem
            (hkeeps u rfl _ hin hmem)
          rw [← canonicalPath_eq_join, hwant.2] at hkept
          cases hkept

/-- Saving the log retains the files. -/
theorem saveLog : Retains names p old t (b.saveLog s).2.tree := by
  rw [Batch.saveLog, errorsPath_eq_join]
  exact h.save hlasting hold hdir isName_logName
    (fun hmem => absurd rfl (hlasting _ hmem).ne_log) s.log.toJson.pretty

/-- A whole run, whether it succeeds or not. -/
theorem run (hvalid : b.config.validate = .ok ())
    (hkeeps : ∀ m, names m → b.keeps old m = true) :
    Retains names p old t (b.run schedule s).2.tree := by
  cases hfound : s.tree.unitsBelow b.inputs.summaries b.config.files.summarySuffix with
  | error e =>
    rw [Batch.run, hfound]
    exact h
  | ok found =>
    have hunits := mapCarryIn_preserves (f := b.runUnit schedule)
      (I := fun s => Retains names p old t s.tree)
      (fun _ (_ : _ ∈ found) _ hs => hs.runUnit hlasting hold hdir hvalid fun _ _ m _ => hkeeps m)
      (schedule.units found.length) h
    rw [Batch.snd_run hfound]
    exact hunits.saveLog hlasting hold hdir

end

end Retains

/-! ### Runs one after another -/

/-- What can become of a tree by runs into one directory, which are to leave alone what is there,
and by edits of anything else in between. -/
inductive History (p : Place) (start : FileTree) : FileTree → Prop
  | start : History p start start
  | edit {t t' : FileTree} (h : History p start t)
      (hentry : ∀ q, p.Inside q → t'.entry? q = t.entry? q) : History p start t'
  | run {t : FileTree} (h : History p start t) {b : Batch} (hvalid : b.config.validate = .ok ())
      (hskip : b.config.files.skipExisting = true) (hdir : t.HasDirectory b.inputs.outDir p)
      (schedule : Schedule) (log : ErrorLog) : History p start (b.run schedule ⟨t, log⟩).2.tree

namespace History

variable {p : Place} {start t : FileTree} {old : String → Option String}

/-- The files of lasting names stay as they are. -/
theorem exists_contents (h : History p start t) (hold : start.Contents p old) :
    ∃ now, t.Contents p now ∧
      ∀ n, IsLasting n → ∀ text, old n = some text → now n = some text := by
  induction h with
  | start => exact ⟨old, hold, fun _ _ _ htext => htext⟩
  | edit h hentry ih =>
    obtain ⟨now, hnow, hlast⟩ := ih
    refine ⟨now, fun way hway e => ?_, hlast⟩
    rw [hentry _ ⟨way, hway, rfl⟩, hnow way hway]
  | @run t h b hvalid hskip hdir schedule log ih =>
    obtain ⟨now, hnow, hlast⟩ := ih
    have hrefl : Retains (fun n => IsLasting n ∧ (now n).isSome) p now t
      (⟨t, log⟩ : RunState).tree := .refl hnow
    have hrun : Retains (fun n => IsLasting n ∧ (now n).isSome) p now t
        (b.run schedule ⟨t, log⟩).2.tree :=
      hrefl.run (fun n hn => hn.1) hnow hdir hvalid fun n hn => by
        rw [Batch.keeps, hskip, hn.2]
        rfl
    obtain ⟨now', hnow', heq⟩ := hrun.contents
    refine ⟨now', hnow', fun n hn text htext => ?_⟩
    have htext := hlast n hn text htext
    rw [heq n ⟨hn, by rw [htext]; rfl⟩, htext]

/-- A file of a lasting name stays as it is. -/
theorem entry?_eq (h : History p start t) (hold : start.Contents p old) {n : String}
    (hn : IsLasting n) {e : Entry} (he : start.entry? (p ++ [n]) = some e) :
    t.entry? (p ++ [n]) = some e := by
  obtain ⟨now, hnow, hlast⟩ := h.exists_contents hold
  rw [hold.entry?_eq, Option.map_eq_some_iff] at he
  obtain ⟨text, htext, rfl⟩ := he
  rw [hnow.entry?_eq, hlast n hn text htext]
  rfl

end History

end InstrGraph

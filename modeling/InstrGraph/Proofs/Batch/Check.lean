import InstrGraph.Proofs.Batch.Orderly
import Mathlib.Tactic.MkIffOfInductiveProp

/-!
# A check for orderly runs

All that makes a run into an empty directory orderly can be computed, for a tree that is given:
`Batch.Checks` says what there is to compute, and is decidable. A run that passes has units and
outputs of their own (`Checks.separate`), and is orderly if its outputs are not each other's
temporary files either (`Checks.orderly`). A `CheckedRun` carries the check with it.
-/

namespace InstrGraph

open FileTree (Contents HasDirectory IsUsable temporaryName)
open InstrGraph.Path (IsName join)

namespace Batch

/-- What can be computed of a run into the empty directory at `p`, over the summaries below `r`. -/
@[mk_iff] structure Checks (b : Batch) (t : FileTree) (p r : Place) (found : List String) :
    Prop where
  proper : ∀ e ∈ t.entries, ∀ s ∈ e.1, IsName s
  valid : b.config.validate = .ok ()
  lists : t.ListsInOrder b.inputs.summaries b.config.files.summarySuffix r found
  no_null : '\x00' ∉ b.inputs.outDir.toList
  walk : t.walk (startOf b.inputs.outDir) (stepsOf b.inputs.outDir) = .ok p
  output : t.entry? p = some .directory
  empty : ∀ e ∈ t.entries, ¬ p.Inside e.1
  summaries : ∀ q ∈ t.visitedBy b.inputs.summaries, ¬ p.Inside q
  not_above : ¬ r <+: p
  inputs : ∀ summary ∈ found, ∀ unit ∈ UnitPaths.resolve? summary b.inputs.globalsDir
    b.inputs.structsDir b.config.files, ∀ path ∈ unit.inputs, ∀ q ∈ t.visitedBy path, ¬ p.Inside q
  stems : ((b.unitsAt t found).map LoadedUnit.stem).Nodup
  names : (b.namesAt t found).Nodup
  usable : ∀ n ∈ logName :: b.namesAt t found,
    IsName n ∧ IsUsable n ∧ IsUsable (temporaryName n)

instance (b : Batch) (t : FileTree) (p r : Place) (found : List String) :
    Decidable (b.Checks t p r found) :=
  decidable_of_iff' _ (b.checks_iff t p r found)

namespace Checks

variable {b : Batch} {t : FileTree} {p r : Place} {found : List String} (h : b.Checks t p r found)

include h

/-- A tree that has been checked is proper. -/
theorem isProper : t.IsProper := fun e he => ⟨[], e.1, rfl, by simp, h.proper e he⟩

/-- The output directory of a tree that has been checked is empty. -/
theorem contents : t.Contents p fun _ => none := FileTree.contents_of_not_inside h.empty

/-- A run that has been checked has outputs with names of their own. -/
theorem separate : b.Separate t p found where
  valid := h.valid
  directory := h.lists.directory
  discovered := h.lists.unitsBelow_eq
  output := ⟨h.no_null, h.walk, h.output⟩
  apart := {
    summaries := h.summaries
    not_above := fun q hq => by
      obtain rfl : r = q := by simpa [h.lists.place] using hq
      exact h.not_above
    inputs := h.inputs }
  canSave n hn := by
    obtain ⟨hname, husable, htemporary⟩ := h.usable n hn
    exact h.contents.canSave ⟨h.no_null, h.walk, h.output⟩ hname husable htemporary
  stems := h.stems
  names := h.names

/-- A run that has been checked is orderly if no temporary file has the name of an output. -/
theorem orderly (htemporaries : ∀ m ∈ b.namesAt t found, ∀ n ∈ b.namesAt t found,
    temporaryName m ≠ n) : b.Orderly t p found :=
  { h.separate with temporaries := htemporaries }

end Checks

end Batch

/-- A run that passes the check, with the tree it is over and what is found there. -/
structure CheckedRun where
  run : Batch
  tree : FileTree
  outputs : Place
  summaries : Place
  found : List String
  checks : run.Checks tree outputs summaries found

end InstrGraph

import InstrGraph.Proofs.Symbols.RenameTable
import InstrGraph.Symbols.Tables

/-!
# The tables of a function are numbered

Every table of a function is numbered and has the stem of its kind (`SymbolTables.Sound`). No two
kinds share a stem, so canonical names of different kinds differ.
-/

namespace InstrGraph

namespace SymbolTables

/-- Every table is numbered and has the stem of its kind. -/
structure Sound (s : SymbolTables) : Prop where
  vars : s.vars.Numbered ∧ s.vars.stem = "%var"
  params : s.params.Numbered ∧ s.params.stem = "%arg"
  labels : s.labels.Numbered ∧ (s.labels.stem = "%label_" ∨ s.labels.stem = "%block_")
  structs : s.structs.Numbered ∧ s.structs.stem = "%struct_"
  calls : s.calls.Numbered ∧ s.calls.stem = "@function_"
  globals : ∀ t ∈ s.globals, t.Numbered ∧ t.stem = "@global_var_"

/-- Empty tables are sound. -/
theorem sound_empty (style : Config.LabelStyle) (renameGlobals : Bool) :
    (empty style renameGlobals).Sound where
  vars := ⟨RenameTable.numbered_empty _ _, rfl⟩
  params := ⟨RenameTable.numbered_empty _ _, rfl⟩
  labels := ⟨RenameTable.numbered_empty _ _, by cases style <;> simp [empty, RenameTable.empty,
    Config.LabelStyle.stem]⟩
  structs := ⟨RenameTable.numbered_empty _ _, rfl⟩
  calls := ⟨RenameTable.numbered_empty _ _, rfl⟩
  globals := by
    intro t ht
    cases renameGlobals with
    | false => simp [empty] at ht
    | true =>
      obtain rfl : RenameTable.empty "@global_var_" 0 = t := by simpa [empty] using ht
      exact ⟨RenameTable.numbered_empty _ _, rfl⟩

namespace Sound

variable {s : SymbolTables}

/-- Noting a variable keeps the tables sound. -/
theorem noteVar (h : s.Sound) (name : String) : (s.noteVar name).Sound :=
  { h with vars := ⟨h.vars.1.insert name, by simpa [SymbolTables.noteVar] using h.vars.2⟩ }

/-- Noting a parameter keeps the tables sound. -/
theorem noteParam (h : s.Sound) (name : String) : (s.noteParam name).Sound :=
  { h with params := ⟨h.params.1.insert name, by simpa [SymbolTables.noteParam] using h.params.2⟩ }

/-- Noting a label keeps the tables sound. -/
theorem noteLabel (h : s.Sound) (name : String) : (s.noteLabel name).Sound :=
  { h with labels := ⟨h.labels.1.insert name, by simpa [SymbolTables.noteLabel] using h.labels.2⟩ }

/-- Noting an aggregate type keeps the tables sound. -/
theorem noteStruct (h : s.Sound) (name : String) : (s.noteStruct name).Sound :=
  { h with
    structs := ⟨h.structs.1.insert name, by simpa [SymbolTables.noteStruct] using h.structs.2⟩ }

/-- Noting a call keeps the tables sound. -/
theorem noteCall (h : s.Sound) (name : String) : (s.noteCall name).Sound :=
  { h with calls := ⟨h.calls.1.insert name, by simpa [SymbolTables.noteCall] using h.calls.2⟩ }

/-- Noting a global keeps the tables sound. -/
theorem noteGlobal (h : s.Sound) (name : String) : (s.noteGlobal name).Sound := by
  refine { h with globals := fun t ht => ?_ }
  obtain ⟨before, hbefore, rfl⟩ := Option.map_eq_some_iff.mp ht
  exact ⟨(h.globals before hbefore).1.insert name, by simpa using (h.globals before hbefore).2⟩

/-- Noting a call that keeps its name keeps the tables sound. -/
theorem noteExemptCall (h : s.Sound) (name : String) : (s.noteExemptCall name).Sound := { h with }

end Sound

end SymbolTables

end InstrGraph

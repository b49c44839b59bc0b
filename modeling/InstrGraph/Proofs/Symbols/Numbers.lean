import InstrGraph.Proofs.Symbols.FirstSight

/-!
# Which number a parameter gets

A table numbers the names that it is shown without repetitions (`RenameTable.get?_insertAll_empty`).
So a parameter is numbered by its declaration exactly if no two declarations up to it have the same
name (`params_numbered_iff`). Declarations without a name all end in their type, and those of one
type count once.
-/

namespace InstrGraph

namespace RenameTable

variable {t : RenameTable} {stem n : String} {base : Nat} {ns : List String}

/-- A numbered table is still numbered after several insertions. -/
theorem Numbered.insertAll (h : t.Numbered) (ns : List String) : (t.insertAll ns).Numbered := by
  induction ns generalizing t with
  | nil => exact h
  | cons n ns ih => exact ih (h.insert n)

/-- Insertions keep the stem of a table. -/
@[simp] theorem stem_insertAll (t : RenameTable) (ns : List String) :
    (t.insertAll ns).stem = t.stem := by
  induction ns generalizing t with
  | nil => rfl
  | cons n ns ih => exact (ih (t.insert n)).trans (stem_insert t n)

/-- Insertions keep the number that a table begins with. -/
@[simp] theorem base_insertAll (t : RenameTable) (ns : List String) :
    (t.insertAll ns).base = t.base := by
  induction ns generalizing t with
  | nil => rfl
  | cons n ns ih => exact (ih (t.insert n)).trans (base_insert t n)

/-- A name has the number of its place among the different names. -/
theorem get?_insertAll_empty (hn : n ∈ ns) : ((empty stem base).insertAll ns).get? n =
    some (stem ++ toString (base + ns.eraseDups.idxOf n)) := by
  have hnumbered := (numbered_empty stem base).insertAll ns
  refine hnumbered.get?_eq_some_iff.mpr ⟨ns.eraseDups.idxOf n, ?_, ?_⟩
  · rw [names_insertAll rfl]
    exact List.getElem?_idxOf (List.mem_eraseDups.mpr hn)
  · rw [canonicalAt, stem_insertAll, base_insertAll]
    rfl

end RenameTable

/-- The number of a parameter is one more than the number of different names that are declared
before its name is. It is the number of its declaration exactly if the names up to it are all
different. -/
theorem params_numbered_iff (metadata : Metadata) (frequency : FrequencyTables)
    (config : Config.Canonicalize) (f : Function) (i : Fin f.params.length) :
    let params := (collectSymbols metadata frequency config f).1.params
    let names := f.params.map fun p => Token.stripAnnotations (Token.last p)
    let name := Token.stripAnnotations (Token.last (f.params.get i))
    params.get? name =
        some ("%arg" ++ toString (1 + (names.take (names.idxOf name)).eraseDups.length)) ∧
      (params.get? name = some ("%arg" ++ toString (i.val + 1)) ↔
        (names.take (i.val + 1)).Nodup) := by
  intro params names name
  obtain ⟨c, hc, hparams, -⟩ := exists_collection metadata frequency config f
  have hnames : f.declaredParams = names := by
    rw [Function.declaredParams, Function.paramNames, List.map_map]
    rfl
  have hname : names[i.val]? = some name := by simp [names, name]
  have hmem : name ∈ names := List.mem_of_getElem? hname
  have hget : params.get? name =
      some ((RenameTable.empty "%arg" 1).canonicalAt (names.eraseDups.idxOf name)) := by
    rw [show params = c.symbols.params from congrArg (·.1.params) hc, hparams, hnames]
    exact RenameTable.get?_insertAll_empty hmem
  refine ⟨by rw [hget, idxOf_eraseDups hmem]; rfl, ?_⟩
  rw [hget, ← idxOf_eraseDups_eq_iff hname, Option.some.injEq, Nat.add_comm]
  exact ⟨fun h => RenameTable.canonicalAt_inj h, fun h => congrArg _ h⟩

/-- Two parameters without a name, as it may be where only their types count. -/
def unnamedParams : Function := { name := "f", params := ["i32", "i32", "ptr %x"] }

/-- The two count as one, so the third parameter has the second number. -/
theorem params_unnamedParams :
    let params := (collectSymbols {} {} {} unnamedParams).1.params
    params.get? "%x" = some "%arg2" ∧ params.get? "%x" ≠ some "%arg3" := by
  decide +kernel

end InstrGraph

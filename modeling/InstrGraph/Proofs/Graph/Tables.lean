import InstrGraph.Graph.Build
import Mathlib.Data.List.Basic

/-!
# What a graph depends on

The graph of a canonical function is built by asking a builder what the values of its instructions
stand for and which edges its globals give. Builders that answer alike for the instructions of
their function (`Builder.Alike`) build the same graph, or fail with the same error
(`Builder.Alike.build`).

Of the symbol tables only that of the globals still matters (`build_eq_of_globals_eq`). The other
tables hold names as they were before.
-/

namespace InstrGraph

namespace SymbolTables

variable {s s' : SymbolTables}

/-- The canonical name of a global depends on the table of globals only. -/
theorem canonicalGlobal_eq_of_globals_eq (h : s'.globals = s.globals) :
    s'.canonicalGlobal = s.canonicalGlobal := by
  funext name
  rw [canonicalGlobal, canonicalGlobal, h]

/-- The key of a global depends on the table of globals only. -/
theorem globalKey_eq_of_globals_eq (h : s'.globals = s.globals) : s'.globalKey = s.globalKey := by
  funext name
  rw [globalKey, globalKey, h]

end SymbolTables

/-- The values of an instruction: its operands, its condition and what it returns. -/
def Instruction.values (i : Instruction) : List String :=
  i.operands ++ i.condition.toList ++ i.returnValue.toList

namespace Builder

/-- Two builders of one function treat its instructions alike: the values stand for the same, and
the globals that they stand for or that the instructions use give the same edges. -/
structure Alike (b b' : Builder) : Prop where
  function : b'.function = b.function
  config : b'.config = b.config
  params : b'.resolver.params = b.resolver.params
  classify : ∀ i ∈ b.function.instructions, ∀ v ∈ i.values, ∀ callee,
    b'.resolver.classify v callee = b.resolver.classify v callee
  operandGlobal : ∀ i ∈ b.function.instructions, ∀ name, .global name ∈ b.operandsOf i →
    ∀ s node, b'.globalEdge s name node = b.globalEdge s name node
  usedGlobal : ∀ i ∈ b.function.instructions, ∀ key ∈ i.usage.globals, ∀ s node,
    b'.globalEdge s (b'.symbols.canonicalGlobal key) node =
      b.globalEdge s (b.symbols.canonicalGlobal key) node

namespace Alike

variable {b b' : Builder} {i : Instruction}

section

variable (h : b.Alike b')

include h

/-- Builders that are alike add the same edges for parameters. -/
theorem parameterEdge : b'.parameterEdge = b.parameterEdge := by
  funext s name node
  simp only [Builder.parameterEdge, declarationOf, h.function]

/-- Builders that are alike have the same kind of edge for conditions. -/
theorem conditionKind : b'.conditionKind = b.conditionKind := by
  rw [Builder.conditionKind, Builder.conditionKind, h.config]

/-- Builders that are alike tell in the same way whether a parameter is called. -/
theorem callsParam : b'.callsParam = b.callsParam := by
  funext i
  simp only [Builder.callsParam, Resolver.isParam, h.params]

/-- Builders that are alike add the same blocks. -/
theorem addBlocks (g : Graph) (blocks : List Block) :
    b'.addBlocks g blocks = b.addBlocks g blocks := by
  induction blocks generalizing g with
  | nil => rfl
  | cons block blocks ih => simp only [Builder.addBlocks, duplicateLabel, h.function, ih]

/-- Builders that are alike find the same blocks that cannot be reached. -/
theorem unreachableBlocks : b'.unreachableBlocks = b.unreachableBlocks := by
  funext g indices
  simp only [Builder.unreachableBlocks, h.config, h.function]

end

section

variable (h : b.Alike b') (hi : i ∈ b.function.instructions)

include h hi

/-- Builders that are alike add the same edges for the values of an instruction. -/
theorem valueEdge {v : String} (hv : v ∈ i.values) (s : BuildState) (node : Nat) (kind : EdgeKind) :
    b'.valueEdge s i v node kind = b.valueEdge s i v node kind := by
  rw [Builder.valueEdge, Builder.valueEdge, h.classify i hi v hv, h.parameterEdge]

/-- Builders that are alike resolve the operands of an instruction to the same. -/
theorem operandsOf : b'.operandsOf i = b.operandsOf i :=
  List.map_congr_left fun v hv => h.classify i hi v (by simp [Instruction.values, hv]) _

/-- Builders that are alike tell in the same way whether an instruction uses a parameter. -/
theorem usesParam : b'.usesParam i = b.usesParam i := by
  have hvalues : (i.condition.toList ++ i.returnValue.toList).any (fun v =>
      isParameter (b'.resolver.classify v none)) =
        (i.condition.toList ++ i.returnValue.toList).any fun v =>
          isParameter (b.resolver.classify v none) := by
    rw [Bool.eq_iff_iff, List.any_eq_true, List.any_eq_true]
    refine exists_congr fun v => and_congr_right fun hv => ?_
    rw [h.classify i hi v (by
      rw [Instruction.values, List.append_assoc]
      exact List.mem_append_right _ hv)]
  rw [Builder.usesParam, Builder.usesParam, h.callsParam, h.operandsOf hi, hvalues]

/-- Builders that are alike let the same values flow into an instruction. -/
theorem operandFlow (s : BuildState) (node : Nat) :
    b'.operandFlow s i node = b.operandFlow s i node := by
  have hoperands := List.foldl_ext (b'.operandEdge i node) (b.operandEdge i node) s
    (l := (b.operandsOf i).zip i.operands) fun s o ho => by
      rw [operandEdge, operandEdge]
      cases hcase : o.1 with
      | global name =>
        exact h.operandGlobal i hi name (hcase ▸ (List.of_mem_zip ho).1) s node
      | parameter name => rw [h.parameterEdge]
      | instruction _ | unresolved | constant _ | callTarget _ | label _ => rfl
  have hused (s : BuildState) := List.foldl_ext
    (fun s key => b'.globalEdge s (b'.symbols.canonicalGlobal key) node)
    (fun s key => b.globalEdge s (b.symbols.canonicalGlobal key) node) s
    (l := i.usage.globals) fun s key hkey => h.usedGlobal i hi key hkey s node
  simp only [Builder.operandFlow, h.operandsOf hi, hoperands, hused, h.callsParam, h.parameterEdge]

/-- Builders that are alike treat a branch in the same way. -/
theorem branch (s : BuildState) (node : Nat) : b'.branch s i node = b.branch s i node := by
  rw [Builder.branch, Builder.branch]
  cases hc : i.condition with
  | none => rfl
  | some v =>
    simp only [h.valueEdge hi (v := v) (by simp [Instruction.values, hc]), h.conditionKind]

/-- Builders that are alike treat a switch in the same way. -/
theorem switch (s : BuildState) (node : Nat) : b'.switch s i node = b.switch s i node := by
  rw [Builder.switch, Builder.switch]
  cases hc : i.condition with
  | none => rfl
  | some v =>
    simp only [h.valueEdge hi (v := v) (by simp [Instruction.values, hc]), h.conditionKind]

/-- Builders that are alike treat a return in the same way. -/
theorem ret (s : BuildState) (node : Nat) : b'.ret s i node = b.ret s i node := by
  rw [Builder.ret, Builder.ret]
  cases hv : i.returnValue with
  | none => rfl
  | some v => simp only [h.valueEdge hi (v := v) (by simp [Instruction.values, hv])]

/-- Builders that are alike treat an instruction that is no terminator in the same way. -/
theorem plain (block : Nat) (blockIds : List UInt32) (s : BuildState) (node : Nat) :
    b'.plain block blockIds s i node = b.plain block blockIds s i node := by
  have hdepends : b'.dependsOn blockIds i = b.dependsOn blockIds i := by
    rw [dependsOn, dependsOn, h.operandsOf hi]
  simp only [Builder.plain, hdepends, h.operandFlow hi]

/-- Builders that are alike walk over an instruction in the same way. -/
theorem walkInstruction (block : Nat) (blockIds : List UInt32) (s : BuildState) :
    b'.walkInstruction block blockIds s i = b.walkInstruction block blockIds s i := by
  simp only [Builder.walkInstruction, invoke, h.usesParam hi, h.branch hi, h.switch hi, h.ret hi,
    h.operandFlow hi, h.plain hi]

end

variable (h : b.Alike b')

include h

/-- Builders that are alike walk over instructions in the same way. -/
theorem walkInstructions (block : Nat) (blockIds : List UInt32) (s : BuildState)
    {is : List Instruction} (his : ∀ i ∈ is, i ∈ b.function.instructions) :
    b'.walkInstructions block blockIds s is = b.walkInstructions block blockIds s is := by
  induction is generalizing s with
  | nil => rfl
  | cons i is ih =>
    rw [Builder.walkInstructions, Builder.walkInstructions,
      h.walkInstruction (his i List.mem_cons_self)]
    cases b.walkInstruction block blockIds s i with
    | ok s => exact ih s fun j hj => his j (List.mem_cons_of_mem i hj)
    | error m => simp only [malformed, h.function]

/-- Builders that are alike walk over blocks in the same way. -/
theorem walkBlocks (s : BuildState) {entries : List (Block × Nat)}
    (hentries : ∀ e ∈ entries, e.1 ∈ b.function.blocks) :
    b'.walkBlocks s entries = b.walkBlocks s entries := by
  induction entries generalizing s with
  | nil => rfl
  | cons entry entries ih =>
    obtain ⟨block, index⟩ := entry
    have hblock : ∀ i ∈ block.instructions, i ∈ b.function.instructions := fun i hi =>
      List.mem_flatMap.mpr ⟨block, hentries _ List.mem_cons_self, hi⟩
    rw [Builder.walkBlocks, Builder.walkBlocks]
    simp only [h.walkInstructions index _ _ hblock]
    split
    · exact ih _ fun e he => hentries e (List.mem_cons_of_mem _ he)
    · rfl

/-- Builders that treat instructions alike build the same graph. -/
theorem build : b'.build = b.build := by
  have hwalk (s : BuildState) (indices : List Nat) :
      b'.walkBlocks s (b.function.blocks.zip indices) =
        b.walkBlocks s (b.function.blocks.zip indices) :=
    h.walkBlocks s fun _ he => (List.of_mem_zip he).1
  simp only [Builder.build, h.function, h.addBlocks, h.unreachableBlocks, hwalk]

end Alike

/-- Of the symbol tables only that of the globals matters. -/
theorem build_eq_of_globals_eq (f : Function) {s s' : SymbolTables}
    (h : s'.globals = s.globals) (metadata : Metadata) (config : Config.Graph)
    (placeholder : String) :
    (Builder.of f s' metadata config placeholder).build =
      (Builder.of f s metadata config placeholder).build := by
  have hresolver : Resolver.ofFunction f s' metadata placeholder =
      Resolver.ofFunction f s metadata placeholder := by
    simp only [Resolver.ofFunction, SymbolTables.canonicalGlobal_eq_of_globals_eq h]
  have hedge : (Builder.of f s' metadata config placeholder).globalEdge =
      (Builder.of f s metadata config placeholder).globalEdge := by
    funext st canonical node
    simp only [globalEdge, Builder.of, SymbolTables.globalKey_eq_of_globals_eq h]
  refine Alike.build
    { function := rfl, config := rfl, params := rfl, classify := ?_, operandGlobal := ?_
      usedGlobal := ?_ }
  · intro i _ v _ callee
    exact congrArg (fun r : Resolver => r.classify v callee) hresolver
  · intro i _ name _ st node
    rw [hedge]
  · intro i _ key _ st node
    rw [hedge]
    exact congrArg (fun key => globalEdge _ st key node)
      (congrFun (SymbolTables.canonicalGlobal_eq_of_globals_eq h) key)

end Builder

end InstrGraph

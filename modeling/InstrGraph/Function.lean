import InstrGraph.Instruction

/-!
# Functions

A function is a list of blocks, a block a list of instructions under one label. The canonical form
that is written out carries four derived sets beside the function: everything its instructions use.
-/

namespace InstrGraph

/-- Instructions under one label. -/
structure Block where
  label : String
  instructions : List Instruction := []
  deriving DecidableEq, Repr

namespace Block

/-- The last instruction of a block, if it is a terminator. -/
def terminator? (b : Block) : Option Instruction :=
  b.instructions.getLast?.filter Instruction.isTerminator

end Block

/-- The summary of a function. -/
structure Function where
  name : String
  /-- The declarations of the parameters, each a type and a name. -/
  params : List String := []
  blocks : List Block := []
  deriving DecidableEq, Repr

/-- Everything the instructions of a function use, in the order of first use. -/
structure UsedSets where
  globals : List String := []
  structs : List String := []
  calls : List String := []
  constants : List String := []
  deriving DecidableEq, Repr

namespace Function

/-- The names of the parameters: the last word of each declaration. -/
def paramNames (f : Function) : List String := f.params.map Token.last

/-- The instructions of all blocks, in order. -/
def instructions (f : Function) : List Instruction := f.blocks.flatMap Block.instructions

/-- How many instructions the function has. -/
def instructionCount (f : Function) : Nat :=
  f.blocks.foldr (fun b n => b.instructions.length + n) 0

/-- The union of what the instructions use. -/
def usedSets (f : Function) : UsedSets :=
  let used := (f.instructions.map Instruction.usage).foldl Usage.merge {}
  { globals := used.globals, structs := used.structs, calls := used.calls,
    constants := used.constants }

/-- The number of instructions is the length of their list. -/
theorem instructionCount_eq (f : Function) : f.instructionCount = f.instructions.length := by
  rw [instructionCount, instructions]
  induction f.blocks with
  | nil => rfl
  | cons b rest ih => rw [List.foldr_cons, ih, List.flatMap_cons, List.length_append]

end Function

/-- A canonical function together with its derived sets, as it is written out. -/
structure CanonicalFunction where
  function : Function
  sets : UsedSets
  deriving DecidableEq, Repr

/-- A function with the sets that its usage gives. -/
def CanonicalFunction.ofFunction (f : Function) : CanonicalFunction := ⟨f, f.usedSets⟩

end InstrGraph

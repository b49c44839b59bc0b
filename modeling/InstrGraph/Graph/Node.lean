import InstrGraph.Metadata

/-!
# Nodes and edges of a graph

A node is identified by what it stands for: the function itself, a block, an instruction, a
parameter or a global. In a document it goes by a text, its `id`.
-/

namespace InstrGraph

/-- What a node stands for. -/
inductive NodeKey where
  | function
  | block (label : String)
  | instruction (id : UInt32)
  | parameter (name : String)
  | global (name : String)
  deriving DecidableEq, Repr

/-- The name of a node in a document. -/
def NodeKey.id : NodeKey → String
  | function => "function_start"
  | block label => label
  | instruction id => toString id.toNat
  | parameter name => name
  | global name => name

/-- What a document tells about a node. -/
inductive NodeAttrs where
  | function (paramCount blockCount : Nat)
  | block (instructionCount : Nat)
  | instruction (text opcode : String) (usesParam : Bool)
  | parameter (definition : String)
  | global (definition : String) (globalType : GlobalType) (value : Json) (linkage : String)
      (valueLens : Json)
  deriving Repr

/-- The kinds of edges. -/
inductive EdgeKind where
  /-- From the function to its first block. -/
  | entry
  /-- From a block to an instruction, or from a leaf to a terminator. -/
  | sequential
  /-- From the instruction that makes a value to one that takes it. -/
  | data
  /-- From a terminator to a block it may go to. -/
  | control
  /-- From a parameter to an instruction. -/
  | parameter
  /-- From a global to an instruction. -/
  | global
  /-- From the instruction that makes a condition to the branch that takes it. -/
  | condition
  deriving DecidableEq, Repr

namespace EdgeKind

/-- The word for a kind of edge. -/
def name : EdgeKind → String
  | entry => "Entry"
  | sequential => "Sequential"
  | data => "Data"
  | control => "Control"
  | parameter => "Parameter"
  | global => "Global"
  | condition => "Condition"

/-- All kinds of edges. -/
def all : List EdgeKind := [entry, sequential, data, control, parameter, global, condition]

/-- The kind of a word. -/
def ofName? (s : String) : Option EdgeKind := all.find? fun k => k.name == s

/-- A kind of edges is found by its name. -/
theorem ofName?_name (k : EdgeKind) : ofName? k.name = some k := by cases k <;> decide

end EdgeKind

end InstrGraph

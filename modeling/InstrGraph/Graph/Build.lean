import InstrGraph.Diagnostic
import InstrGraph.Error
import InstrGraph.Graph.Arena
import InstrGraph.Graph.Operand

/-!
# Building the graph of a function

The blocks of a canonical function become nodes first, so that control may flow to later ones.
Then the instructions are walked in order, and each becomes a node with its edges:

* an instruction that takes nothing from its own block hangs on the block (`sequential`);
* values flow from the instructions, parameters and globals that its operands stand for;
* a `ret`, `br`, `unreachable` or `invoke` takes an edge from every leaf that is left;
* a `br`, `switch` or `invoke` has an edge to every block it may go to (`control`).

A terminator without the parts that its opcode needs ends the work (`Malformation`). An operand
that resolves to nothing, and a block that nothing leads to, is only reported.
-/

namespace InstrGraph

/-- What may be wrong with the shape of a function. -/
inductive Malformation where
  | duplicateLabel
  | duplicateId
  | brWithoutTargets
  | brWithManyTargets
  | brWithoutCondition
  | switchWithoutCondition
  | switchWithoutTargets
  | invokeWithoutTargets
  | unknownTarget (target : String)
  deriving DecidableEq, Repr

/-- The wording of a malformation. -/
def Malformation.message : Malformation → String
  | duplicateLabel => "duplicate block label"
  | duplicateId => "duplicate instruction id"
  | brWithoutTargets => "br without targets"
  | brWithManyTargets => "br with more than two targets"
  | brWithoutCondition => "conditional br without condition"
  | switchWithoutCondition => "switch without condition"
  | switchWithoutTargets => "switch without targets"
  | invokeWithoutTargets => "invoke without targets"
  | unknownTarget target => "unknown target block `" ++ target ++ "`"

/-- What a graph is built from. -/
structure Builder where
  function : Function
  symbols : SymbolTables
  metadata : Metadata
  config : Config.Graph
  resolver : Resolver

/-- A graph so far, with the warnings so far. -/
structure BuildState where
  graph : Graph
  diagnostics : List Diagnostic := []
  deriving Repr

namespace BuildState

/-- Add an edge. -/
def addEdge (s : BuildState) (source target : Nat) (kind : EdgeKind) : BuildState :=
  { s with graph := s.graph.addEdge source target kind }

/-- Warn that an operand resolves to nothing. -/
def unresolved (s : BuildState) (i : Instruction) (operand : String) : BuildState :=
  { s with diagnostics := s.diagnostics ++ [.unresolved i.id operand] }

/-- Let every leaf flow into a terminator. -/
def connectLeaves (s : BuildState) (node : Nat) : BuildState :=
  (s.graph.leavesExcept node).foldl (fun s leaf => s.addEdge leaf node .sequential) s

/-- Let the value of an earlier instruction flow into a node. Values only flow forward. -/
def dataEdge (s : BuildState) (i : Instruction) (producer : UInt32) (node : Nat)
    (kind : EdgeKind) : BuildState :=
  if producer < i.id then
    match s.graph.indexOf? (.instruction producer) with
    | some source => s.addEdge source node kind
    | none => s
  else s

end BuildState

namespace Builder

/-- The builder of a canonical function. -/
def of (f : Function) (symbols : SymbolTables) (metadata : Metadata) (config : Config.Graph)
    (placeholder : String) : Builder where
  function := f
  symbols := symbols
  metadata := metadata
  config := config
  resolver := .ofFunction f symbols metadata placeholder

/-- The declaration of a parameter: the last one of its name, or else the name itself. -/
def declarationOf (b : Builder) (name : String) : String :=
  (b.function.params.reverse.find? fun d => Token.last d == name).getD name

/-- Let a parameter flow into a node. -/
def parameterEdge (b : Builder) (s : BuildState) (name : String) (node : Nat) : BuildState :=
  let (graph, source) := s.graph.ensureNode (.parameter name) (.parameter (b.declarationOf name))
  { s with graph := graph.addEdge source node .parameter }

/-- Let a global flow into a node, if it is known and becomes a node at all. -/
def globalEdge (b : Builder) (s : BuildState) (canonical : String) (node : Nat) : BuildState :=
  match b.metadata.global? (b.symbols.globalKey canonical) with
  | some info =>
    if info.globalType.isMaterialized then
      let (graph, source) := s.graph.ensureNode (.global canonical)
        (.global info.definition info.globalType info.value info.linkage info.valueLens)
      { s with graph := graph.addEdge source node .global }
    else s
  | none => s

/-- Let the condition or return value of a terminator flow into it. -/
def valueEdge (b : Builder) (s : BuildState) (i : Instruction) (value : String) (node : Nat)
    (kind : EdgeKind) : BuildState :=
  match b.resolver.classify value none with
  | .instruction producer => s.dataEdge i producer node kind
  | .parameter name => b.parameterEdge s name node
  | .unresolved => s.unresolved i value
  | _ => s

/-- Let one operand flow into its instruction. -/
def operandEdge (b : Builder) (i : Instruction) (node : Nat) (s : BuildState)
    (operand : Operand × String) : BuildState :=
  match operand.1 with
  | .instruction producer => s.dataEdge i producer node .data
  | .parameter name => b.parameterEdge s name node
  | .global name => b.globalEdge s name node
  | .unresolved => s.unresolved i operand.2
  | .constant _ | .callTarget _ | .label _ => s

/-- What the operands of an instruction stand for. -/
def operandsOf (b : Builder) (i : Instruction) : List Operand :=
  i.operands.map fun o => b.resolver.classify o i.calleeName?

/-- The instruction calls a parameter. -/
def callsParam (b : Builder) (i : Instruction) : Bool :=
  match i.calleeName? with
  | some c => b.resolver.isParam c
  | none => false

/-- The operand is a parameter. -/
def isParameter : Operand → Bool
  | .parameter _ => true
  | _ => false

/-- The instruction takes a parameter in some place. -/
def usesParam (b : Builder) (i : Instruction) : Bool :=
  b.callsParam i || (b.operandsOf i).any isParameter ||
    (i.condition.toList ++ i.returnValue.toList).any fun v =>
      isParameter (b.resolver.classify v none)

/-- Let everything flow into an instruction that it takes: its operands, the globals it uses, and
the parameter it calls. -/
def operandFlow (b : Builder) (s : BuildState) (i : Instruction) (node : Nat) : BuildState :=
  let s := ((b.operandsOf i).zip i.operands).foldl (b.operandEdge i node) s
  let s := i.usage.globals.foldl
    (fun s key => b.globalEdge s (b.symbols.canonicalGlobal key) node) s
  match i.calleeName? with
  | some callee => if b.callsParam i then b.parameterEdge s callee node else s
  | none => s

/-- The kind of edge by which a condition flows into its branch. -/
def conditionKind (b : Builder) : EdgeKind :=
  match b.config.conditionEdge with
  | .data => .data
  | .condition => .condition

/-- Let control flow from a terminator to its targets. -/
def controlEdges (node : Nat) : BuildState → List String → Except Malformation BuildState
  | s, [] => .ok s
  | s, target :: rest =>
    match s.graph.indexOf? (.block (Token.normalizeLabel target)) with
    | some block => controlEdges node (s.addEdge node block .control) rest
    | none => .error (.unknownTarget target)

/-- The edges of a `br`. -/
def branch (b : Builder) (s : BuildState) (i : Instruction) (node : Nat) :
    Except Malformation BuildState :=
  if i.targets.length = 0 then .error .brWithoutTargets
  else if i.targets.length > 2 then .error .brWithManyTargets
  else
    match i.condition with
    | some condition =>
      let s := b.valueEdge s i condition node b.conditionKind
      controlEdges node (s.connectLeaves node) i.targets
    | none =>
      if i.targets.length = 2 then .error .brWithoutCondition
      else controlEdges node (s.connectLeaves node) i.targets

/-- The edges of a `switch`. Leaves stay pending. -/
def switch (b : Builder) (s : BuildState) (i : Instruction) (node : Nat) :
    Except Malformation BuildState :=
  match i.condition with
  | none => .error .switchWithoutCondition
  | some condition =>
    if i.targets.isEmpty then .error .switchWithoutTargets
    else controlEdges node (b.valueEdge s i condition node b.conditionKind) i.targets

/-- The edges of a `ret`. -/
def ret (b : Builder) (s : BuildState) (i : Instruction) (node : Nat) : BuildState :=
  let s := match i.returnValue with
    | some value => b.valueEdge s i value node .data
    | none => s
  s.connectLeaves node

/-- The edges of an `invoke`. -/
def invoke (b : Builder) (s : BuildState) (i : Instruction) (node : Nat) :
    Except Malformation BuildState :=
  if i.targets.isEmpty then .error .invokeWithoutTargets
  else controlEdges node ((b.operandFlow s i node).connectLeaves node) i.targets

/-- The instruction takes a value from its own block. Later instructions of the block count. -/
def dependsOn (b : Builder) (blockIds : List UInt32) (i : Instruction) : Bool :=
  (b.operandsOf i).any fun
    | .instruction id => blockIds.contains id
    | _ => false

/-- The edges of an instruction that is no terminator. -/
def plain (b : Builder) (block : Nat) (blockIds : List UInt32) (s : BuildState)
    (i : Instruction) (node : Nat) : BuildState :=
  let s := if b.dependsOn blockIds i then s else s.addEdge block node .sequential
  let s := b.operandFlow s i node
  { s with graph := s.graph.trackLeaf node }

/-- Walk an instruction of a block. -/
def walkInstruction (b : Builder) (block : Nat) (blockIds : List UInt32) (s : BuildState)
    (i : Instruction) : Except Malformation BuildState :=
  if s.graph.contains (.instruction i.id) then .error .duplicateId
  else
    let (graph, node) := s.graph.ensureNode (.instruction i.id)
      (.instruction i.text i.opcode.name (b.usesParam i))
    let s := { s with graph }
    match i.opcode with
    | .br => b.branch s i node
    | .switch => b.switch s i node
    | .ret => .ok (b.ret s i node)
    | .unreachable => .ok (s.connectLeaves node)
    | .invoke => b.invoke s i node
    | .call | .other _ => .ok (b.plain block blockIds s i node)

/-- The error that a malformation of an instruction amounts to. -/
def malformed (b : Builder) (i : Instruction) (m : Malformation) : Error :=
  .malformed b.function.name i.id i.text m.message

/-- Walk instructions of a block in order. -/
def walkInstructions (b : Builder) (block : Nat) (blockIds : List UInt32) :
    BuildState → List Instruction → Except Error BuildState
  | s, [] => .ok s
  | s, i :: rest =>
    match b.walkInstruction block blockIds s i with
    | .ok s => b.walkInstructions block blockIds s rest
    | .error m => .error (b.malformed i m)

/-- Walk blocks in order, each with the index of its node. -/
def walkBlocks (b : Builder) : BuildState → List (Block × Nat) → Except Error BuildState
  | s, [] => .ok s
  | s, (block, index) :: rest =>
    let s := { s with graph := s.graph.enterBlock index }
    match b.walkInstructions index (block.instructions.map (·.id)) s block.instructions with
    | .ok s => b.walkBlocks s rest
    | .error e => .error e

/-- The error of a block whose label has been used before. It names the first instruction. -/
def duplicateLabel (b : Builder) (block : Block) : Error :=
  let id := match block.instructions with
    | i :: _ => i.id
    | [] => 0
  .malformed b.function.name id block.label Malformation.duplicateLabel.message

/-- Make nodes of blocks in order. Returns their indices. -/
def addBlocks (b : Builder) : Graph → List Block → Except Error (Graph × List Nat)
  | g, [] => .ok (g, [])
  | g, block :: rest =>
    let key := NodeKey.block (Token.normalizeLabel block.label)
    if g.contains key then .error (b.duplicateLabel block)
    else
      let (g, index) := g.ensureNode key (.block block.instructions.length)
      match b.addBlocks g rest with
      | .ok (g, indices) => .ok (g, index :: indices)
      | .error e => .error e

/-- The warnings about blocks that nothing leads to. -/
def unreachableBlocks (b : Builder) (g : Graph) (indices : List Nat) : List Diagnostic :=
  if b.config.reportUnreachableBlocks then
    (b.function.blocks.zip indices).filterMap fun (block, index) =>
      if g.inDegree index = 0 then some (.unreachableBlock block.label) else none
  else []

/-- The graph of the function, and the warnings on the way. -/
def build (b : Builder) : Except Error (Graph × List Diagnostic) := do
  let f := b.function
  let (g, entry) := (Graph.empty f.name).ensureNode .function
    (.function f.params.length f.blocks.length)
  let (g, indices) ← b.addBlocks g f.blocks
  let g := match indices with
    | first :: _ => g.addEdge entry first .entry
    | [] => g
  let s ← b.walkBlocks { graph := g } (f.blocks.zip indices)
  return (s.graph, s.diagnostics ++ b.unreachableBlocks s.graph indices)

end Builder

end InstrGraph

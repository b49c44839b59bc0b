import InstrGraph.Proofs.FirstBy
import InstrGraph.Proofs.Graph.Document

/-!
# Conditions by a kind of their own

The option `conditionEdge` says by which kind of edge a condition flows into its branch. Nothing on
the way looks at the kinds of edges: not the leaves, not the degrees, not the order of the nodes. So
a build that forgets afterwards which values were conditions is the build that never tells them
apart (`build_withConditions_data`).

Which edges were conditions can be told from the graph without them: all edges that carry a value
from an instruction to a `br` or `switch`, and no others (`relabel_asData`). The same goes for the
links of a document, where repetitions are removed on both sides alike (`linkOf_relabel`).
-/

namespace InstrGraph

/-! ### Forgetting conditions -/

/-- The kind of edge of a value that is not told apart from others for being a condition. -/
def EdgeKind.asData : EdgeKind → EdgeKind
  | condition => data
  | k => k

/-- As data, no kind is that of conditions. -/
theorem EdgeKind.asData_ne (k : EdgeKind) : k.asData ≠ condition := by
  cases k <;> simp [asData]

/-- The edge of such a value. -/
def Edge.asData (e : Edge) : Edge := { e with kind := e.kind.asData }

/-- Only edges of conditions change their kind. -/
theorem Edge.asData_eq_self {e : Edge} (h : e.kind ≠ .condition) : e.asData = e := by
  obtain ⟨source, target, kind⟩ := e
  cases kind with
  | condition => exact absurd rfl h
  | _ => rfl

namespace Graph

variable (g : Graph) (source target n : Nat) (kind : EdgeKind) (key : NodeKey) (attrs : NodeAttrs)

/-- The graph without the knowledge which values are conditions. -/
def asData (g : Graph) : Graph := { g with edges := g.edges.map Edge.asData }

/-- Adding an edge as data is adding it and forgetting which values are conditions. -/
theorem addEdge_asData :
    g.asData.addEdge source target kind.asData = (g.addEdge source target kind).asData := by
  simp [addEdge, asData, Edge.asData]

/-- Adding a node does not depend on which values are conditions. -/
theorem ensureNode_asData : g.asData.ensureNode key attrs =
    ((g.ensureNode key attrs).1.asData, (g.ensureNode key attrs).2) := by
  have hindex : g.asData.indexOf? key = g.indexOf? key := rfl
  rw [ensureNode, ensureNode, hindex]
  cases g.indexOf? key <;> rfl

/-- Tracking a leaf does not depend on which values are conditions. -/
theorem trackLeaf_asData : g.asData.trackLeaf n = (g.trackLeaf n).asData := by
  have hdegree : g.asData.outDegree n = g.outDegree n := rfl
  rw [trackLeaf, trackLeaf, hdegree]
  split <;> rfl

/-- The number of edges into a node does not depend on which values are conditions. -/
theorem inDegree_asData : g.asData.inDegree n = g.inDegree n := by
  simp [inDegree, asData, List.filter_map, Function.comp_def, Edge.asData]

end Graph

namespace BuildState

variable (s : BuildState) (n : Nat) (i : Instruction)

/-- The state without the knowledge which values are conditions. -/
def asData (s : BuildState) : BuildState := { s with graph := s.graph.asData }

/-- A state gets an edge as data when it gets it and forgets which values are conditions. -/
theorem addEdge_asData (source target : Nat) (kind : EdgeKind) :
    s.asData.addEdge source target kind.asData = (s.addEdge source target kind).asData := by
  rw [addEdge, addEdge, asData, Graph.addEdge_asData]
  rfl

/-- How leaves are connected does not depend on which values are conditions. -/
theorem connectLeaves_asData : s.asData.connectLeaves n = (s.connectLeaves n).asData := by
  have hfold (sources : List Nat) (s : BuildState) :
      sources.foldl (fun s leaf => s.addEdge leaf n .sequential) s.asData =
        (sources.foldl (fun s leaf => s.addEdge leaf n .sequential) s).asData := by
    induction sources generalizing s with
    | nil => rfl
    | cons leaf rest ih =>
      have hstep : s.asData.addEdge leaf n .sequential = (s.addEdge leaf n .sequential).asData :=
        s.addEdge_asData leaf n .sequential
      rw [List.foldl_cons, List.foldl_cons, hstep, ih]
  exact hfold (s.graph.leavesExcept n) s

/-- An edge from a producer as data is the edge that forgets whether it is a condition. -/
theorem dataEdge_asData (producer : UInt32) (kind : EdgeKind) :
    s.asData.dataEdge i producer n kind.asData = (s.dataEdge i producer n kind).asData := by
  have hindex : s.asData.graph.indexOf? (.instruction producer) =
      s.graph.indexOf? (.instruction producer) := rfl
  rw [dataEdge, dataEdge, hindex]
  split
  · cases s.graph.indexOf? (.instruction producer) with
    | none => rfl
    | some source => exact s.addEdge_asData source n kind
  · rfl

/-- An edge from a node that is made, unless it is there. -/
def addEdgeFrom (key : NodeKey) (attrs : NodeAttrs) (target : Nat) (kind : EdgeKind) : BuildState :=
  { s with
    graph := (s.graph.ensureNode key attrs).1.addEdge (s.graph.ensureNode key attrs).2 target kind }

/-- An edge from an outer node as data is the edge that forgets whether it is a condition. -/
theorem addEdgeFrom_asData (key : NodeKey) (attrs : NodeAttrs) (kind : EdgeKind) :
    s.asData.addEdgeFrom key attrs n kind.asData = (s.addEdgeFrom key attrs n kind).asData := by
  have hedge := Graph.addEdge_asData (s.graph.ensureNode key attrs).1
    (s.graph.ensureNode key attrs).2 n kind
  have hnode : s.asData.graph.ensureNode key attrs = _ := s.graph.ensureNode_asData key attrs
  rw [addEdgeFrom, hnode, hedge]
  rfl

end BuildState

namespace Builder

/-- The builder by which conditions flow by edges of a kind. -/
def withConditions (b : Builder) (kind : Config.ConditionEdge) : Builder :=
  { b with config := { b.config with conditionEdge := kind } }

section

variable (b : Builder) (s : BuildState) (i : Instruction) (n : Nat)

/-- The edge of a parameter does not depend on the option for conditions. -/
theorem parameterEdge_asData (name : String) :
    (b.withConditions .data).parameterEdge s.asData name n = (b.parameterEdge s name n).asData :=
  s.addEdgeFrom_asData n (.parameter name) (.parameter (b.declarationOf name)) .parameter

/-- The edge of a global does not depend on the option for conditions. -/
theorem globalEdge_asData (name : String) :
    (b.withConditions .data).globalEdge s.asData name n = (b.globalEdge s name n).asData := by
  have hinfo : (b.withConditions .data).metadata.global?
      ((b.withConditions .data).symbols.globalKey name) =
        b.metadata.global? (b.symbols.globalKey name) := rfl
  rw [globalEdge, globalEdge, hinfo]
  cases b.metadata.global? (b.symbols.globalKey name) with
  | none => rfl
  | some info =>
    dsimp only
    split
    · exact s.addEdgeFrom_asData n (.global name) _ .global
    · rfl

/-- The edge of a value as data is the edge that forgets whether it is a condition. -/
theorem valueEdge_asData (value : String) (kind : EdgeKind) :
    (b.withConditions .data).valueEdge s.asData i value n kind.asData =
      (b.valueEdge s i value n kind).asData := by
  have hclassify : (b.withConditions .data).resolver.classify value none =
      b.resolver.classify value none := rfl
  rw [valueEdge, valueEdge, hclassify]
  cases b.resolver.classify value none with
  | instruction producer => exact s.dataEdge_asData n i producer kind
  | parameter name => exact b.parameterEdge_asData s n name
  | _ => rfl

/-- The edge of an operand does not depend on the option for conditions. -/
theorem operandEdge_asData (operand : Operand × String) :
    (b.withConditions .data).operandEdge i n s.asData operand =
      (b.operandEdge i n s operand).asData := by
  rw [operandEdge, operandEdge]
  cases operand.1 with
  | instruction producer => exact s.dataEdge_asData n i producer .data
  | parameter name => exact b.parameterEdge_asData s n name
  | global name => exact b.globalEdge_asData s n name
  | _ => rfl

/-- What every item of a list does without the knowledge, all of them do. -/
theorem foldl_asData {α : Type} {f f' : BuildState → α → BuildState}
    (h : ∀ s a, f' s.asData a = (f s a).asData) (items : List α) (s : BuildState) :
    items.foldl f' s.asData = (items.foldl f s).asData := by
  induction items generalizing s with
  | nil => rfl
  | cons a rest ih => rw [List.foldl_cons, List.foldl_cons, h, ih]

/-- The edges of the operands do not depend on the option for conditions. -/
theorem operandFlow_asData :
    (b.withConditions .data).operandFlow s.asData i n = (b.operandFlow s i n).asData := by
  have hoperands : ((b.operandsOf i).zip i.operands).foldl
      ((b.withConditions .data).operandEdge i n) s.asData =
        (((b.operandsOf i).zip i.operands).foldl (b.operandEdge i n) s).asData :=
    foldl_asData (fun s operand => b.operandEdge_asData s i n operand) _ s
  have hglobals (t : BuildState) : i.usage.globals.foldl
      (fun s key => (b.withConditions .data).globalEdge s (b.symbols.canonicalGlobal key) n)
        t.asData =
        (i.usage.globals.foldl
          (fun s key => b.globalEdge s (b.symbols.canonicalGlobal key) n) t).asData :=
    foldl_asData (f := fun s key => b.globalEdge s (b.symbols.canonicalGlobal key) n)
      (fun s key => b.globalEdge_asData s n (b.symbols.canonicalGlobal key)) _ t
  have hboth := hglobals (((b.operandsOf i).zip i.operands).foldl (b.operandEdge i n) s)
  rw [← hoperands] at hboth
  rw [operandFlow, operandFlow]
  cases i.calleeName? with
  | none => exact hboth
  | some callee =>
    have hcalls : (b.withConditions .data).callsParam i = b.callsParam i := rfl
    dsimp only
    rw [hcalls]
    split
    · exact (congrArg (fun s => (b.withConditions .data).parameterEdge s callee n) hboth).trans
        (b.parameterEdge_asData _ n callee)
    · exact hboth

/-- With the option to take conditions for data, the kind of their edges is that of data. -/
theorem conditionKind_asData :
    (b.withConditions .data).conditionKind = b.conditionKind.asData := by
  have hdata : (b.withConditions .data).conditionKind = .data := rfl
  rw [hdata, conditionKind]
  cases b.config.conditionEdge <;> rfl

/-- With the option to take conditions for data, the values of a terminator flow as data. -/
theorem valueFlow_asData :
    (b.withConditions .data).valueFlow s.asData i n = (b.valueFlow s i n).asData := by
  rw [valueFlow, valueFlow, conditionKind_asData]
  cases i.opcode with
  | br | switch =>
    cases i.condition with
    | none => rfl
    | some condition => exact b.valueEdge_asData s i n condition b.conditionKind
  | ret =>
    cases i.returnValue with
    | none => rfl
    | some value => exact b.valueEdge_asData s i n value .data
  | invoke => exact b.operandFlow_asData s i n
  | unreachable | call | other => rfl

/-- An instruction that is no terminator does not depend on the option for conditions. -/
theorem plain_asData (block : Nat) (blockIds : List UInt32) :
    (b.withConditions .data).plain block blockIds s.asData i n =
      (b.plain block blockIds s i n).asData := by
  have hdepends : (b.withConditions .data).dependsOn blockIds i = b.dependsOn blockIds i := rfl
  have htrack (s : BuildState) :
      ({ s.asData with graph := s.asData.graph.trackLeaf n } : BuildState) =
        ({ s with graph := s.graph.trackLeaf n } : BuildState).asData :=
    congrArg (fun g => ({ s with graph := g } : BuildState)) (s.graph.trackLeaf_asData n)
  have hedge : s.asData.addEdge block n .sequential = (s.addEdge block n .sequential).asData :=
    s.addEdge_asData block n .sequential
  rw [plain, plain, hdepends, hedge, ← apply_ite, operandFlow_asData, htrack]

/-- The edges of control do not depend on which values are conditions. -/
theorem controlEdges_asData (targets : List String) :
    controlEdges n s.asData targets = (controlEdges n s targets).map BuildState.asData := by
  induction targets generalizing s with
  | nil => rfl
  | cons target rest ih =>
    have hindex : s.asData.graph.indexOf? (.block (Token.normalizeLabel target)) =
        s.graph.indexOf? (.block (Token.normalizeLabel target)) := rfl
    rw [controlEdges, controlEdges, hindex]
    cases s.graph.indexOf? (.block (Token.normalizeLabel target)) with
    | none => rfl
    | some block =>
      have hedge : s.asData.addEdge n block .control = (s.addEdge n block .control).asData :=
        s.addEdge_asData n block .control
      dsimp only
      rw [hedge, ih]

/-- A visit does the same without the knowledge. -/
theorem walkInstruction_asData (block : Nat) (blockIds : List UInt32) :
    (b.withConditions .data).walkInstruction block blockIds s.asData i =
      (b.walkInstruction block blockIds s i).map BuildState.asData := by
  have hkeys : s.asData.graph.keys = s.graph.keys := rfl
  have hlength : s.asData.graph.slots.length = s.graph.slots.length := rfl
  by_cases hkey : i.key ∈ s.graph.keys
  · rw [walkInstruction_of_mem hkey, walkInstruction_of_mem (hkeys ▸ hkey)]
    rfl
  · have hkey' : i.key ∉ s.asData.graph.keys := hkeys ▸ hkey
    cases hm : i.shapeFault? with
    | some m =>
      rw [walkInstruction_of_shapeFault hkey hm, walkInstruction_of_shapeFault hkey' hm]
      rfl
    | none =>
      have hnode : (b.withConditions .data).withNode s.asData i = (b.withNode s i).asData :=
        congrArg (fun r => ({ s with graph := r.1 } : BuildState))
          (s.graph.ensureNode_asData i.key (.instruction i.text i.opcode.name (b.usesParam i)))
      rw [walkInstruction_of_shaped hkey hm, walkInstruction_of_shaped hkey' hm, hnode, hlength,
        flow, flow, valueFlow_asData, BuildState.connectLeaves_asData, controlEdges_asData,
        controlEdges_asData, plain_asData]
      split
      · rfl
      · split <;> rfl

/-- With the option to take conditions for data, walking instructions makes the same graph but for
the kinds of conditions. -/
theorem walkInstructions_asData (block : Nat) (blockIds : List UInt32) (is : List Instruction) :
    (b.withConditions .data).walkInstructions block blockIds s.asData is =
      (b.walkInstructions block blockIds s is).map BuildState.asData := by
  induction is generalizing s with
  | nil => rfl
  | cons i rest ih =>
    rw [walkInstructions, walkInstructions, walkInstruction_asData]
    cases b.walkInstruction block blockIds s i with
    | error m => rfl
    | ok t => exact ih t

/-- With the option to take conditions for data, walking blocks makes the same graph but for the
kinds of conditions. -/
theorem walkBlocks_asData (placed : List (Block × Nat)) :
    (b.withConditions .data).walkBlocks s.asData placed =
      (b.walkBlocks s placed).map BuildState.asData := by
  induction placed generalizing s with
  | nil => rfl
  | cons p rest ih =>
    have henter : ({ s.asData with graph := s.asData.graph.enterBlock p.2 } : BuildState) =
        ({ s with graph := s.graph.enterBlock p.2 } : BuildState).asData :=
      congrArg (fun g => ({ s with graph := g } : BuildState)) (s.graph.trackLeaf_asData p.2)
    rw [walkBlocks, walkBlocks, henter, walkInstructions_asData]
    cases b.walkInstructions p.2 (p.1.instructions.map (·.id))
        { s with graph := s.graph.enterBlock p.2 } p.1.instructions with
    | error e => rfl
    | ok t => exact ih t

/-- Adding the blocks does not depend on the option for conditions. -/
theorem addBlocks_withConditions (kind : Config.ConditionEdge) (g : Graph) (blocks : List Block) :
    (b.withConditions kind).addBlocks g blocks = b.addBlocks g blocks := by
  induction blocks generalizing g with
  | nil => rfl
  | cons block rest ih =>
    simp only [addBlocks, ih]
    rfl

/-- Which blocks cannot be reached does not depend on which values are conditions. -/
theorem unreachableBlocks_asData (g : Graph) (indices : List Nat) :
    (b.withConditions .data).unreachableBlocks g.asData indices =
      b.unreachableBlocks g indices := by
  simp only [unreachableBlocks, Graph.inDegree_asData]
  rfl

/-- There are no conditions before the walk begins. -/
theorem asData_linkFirst {g : Graph} (root : Nat) (indices : List Nat) (h : g.edges = []) :
    (linkFirst g root indices).asData = linkFirst g root indices := by
  have hnone : g.asData = g := by rw [Graph.asData, h, List.map_nil, ← h]
  cases indices with
  | nil => exact hnone
  | cons first rest =>
    have hedge : g.asData.addEdge root first .entry = (g.addEdge root first .entry).asData :=
      g.addEdge_asData root first .entry
    rw [linkFirst, ← hedge, hnone]

/-- To build without telling conditions apart is to forget about them in the end. -/
theorem build_withConditions_data :
    (b.withConditions .data).build = b.build.map fun r => (r.1.asData, r.2) := by
  have hroot : (b.withConditions .data).root = b.root := rfl
  have hfunction : (b.withConditions .data).function = b.function := rfl
  rw [build_eq, build_eq, addBlocks_withConditions, hroot, hfunction]
  cases hadd : b.addBlocks b.root.1 b.function.blocks with
  | error e => rfl
  | ok added =>
    obtain ⟨g, indices⟩ := added
    have hnone : g.edges = [] := (addBlocks_spec hadd b.root_eq.1).edges.trans b.root_eq.2.2.1
    have hstart : ({ graph := linkFirst g b.root.2 indices } : BuildState).asData =
        { graph := linkFirst g b.root.2 indices } :=
      congrArg (fun g => ({ graph := g } : BuildState)) (asData_linkFirst b.root.2 indices hnone)
    have hwalk := b.walkBlocks_asData { graph := linkFirst g b.root.2 indices }
      (b.function.blocks.zip indices)
    rw [hstart] at hwalk
    dsimp only
    rw [hwalk]
    cases b.walkBlocks { graph := linkFirst g b.root.2 indices }
        (b.function.blocks.zip indices) with
    | error e => rfl
    | ok s =>
      have hblocks := b.unreachableBlocks_asData s.graph indices
      exact congrArg (fun ds => Except.ok (s.graph.asData, s.diagnostics ++ ds)) hblocks

end

end Builder

/-! ### Telling conditions apart afterwards -/

/-- The instruction goes where a condition says. -/
def Instruction.branches (i : Instruction) : Bool :=
  match i.opcode with
  | .br | .switch => true
  | .ret | .unreachable | .invoke | .call | .other _ => false

namespace Graph

instance (g : Graph) (e : Edge) (k k' : NodeKey) : Decidable (g.Connects e k k') :=
  inferInstanceAs (Decidable (_ ∧ _))

/-- The edge leads from an instruction of the function to a `br` or `switch`. -/
def IntoBranch (g : Graph) (f : Function) (e : Edge) : Prop :=
  ∃ i ∈ f.instructions, ∃ j ∈ f.instructions, j.branches = true ∧ g.Connects e i.key j.key

instance (g : Graph) (f : Function) (e : Edge) : Decidable (g.IntoBranch f e) :=
  inferInstanceAs (Decidable (∃ i ∈ f.instructions, ∃ j ∈ f.instructions, _))

/-- The edge, by a kind of its own if its value is a condition. -/
def relabel (g : Graph) (f : Function) (e : Edge) : Edge :=
  if e.kind = .data ∧ g.IntoBranch f e then { e with kind := .condition } else e

/-- The link of an edge. -/
def linkOf (g : Graph) (e : Edge) : Link := ⟨g.idAt e.source, g.idAt e.target, e.kind⟩

/-- The link of an edge has the ids of the nodes that the edge connects. -/
theorem linkOf_of_connects {g : Graph} {e : Edge} {k k' : NodeKey} (h : g.Connects e k k') :
    g.linkOf e = ⟨k.id, k'.id, e.kind⟩ := by
  rw [linkOf, idAt, idAt, h.1, h.2]

end Graph

namespace Link

/-- The link leads from an instruction of the function to a `br` or `switch`. -/
def IntoBranch (f : Function) (l : Link) : Prop :=
  ∃ i ∈ f.instructions, ∃ j ∈ f.instructions, j.branches = true ∧
    l.source = i.key.id ∧ l.target = j.key.id

instance (f : Function) (l : Link) : Decidable (l.IntoBranch f) :=
  inferInstanceAs (Decidable (∃ i ∈ f.instructions, ∃ j ∈ f.instructions, _))

/-- The link, by a kind of its own if its value is a condition. -/
def relabel (f : Function) (l : Link) : Link :=
  if l.kind = .data ∧ l.IntoBranch f then { l with kind := .condition } else l

end Link

/-- The document with a kind of their own for conditions. -/
def Document.relabel (f : Function) (d : Document) : Document :=
  { d with links := d.links.map (Link.relabel f) }

namespace Builder

variable {b : Builder} {g : Graph} {ds : List Diagnostic} {e : Edge} {i j : Instruction}

/-- A node belongs to one instruction. -/
theorem eq_of_key_eq (h : b.build = .ok (g, ds)) (hi : i ∈ b.function.instructions)
    (hj : j ∈ b.function.instructions) (hkey : i.key = j.key) : i = j :=
  List.inj_on_of_nodup_map (nodup_ids_of_build h) hi hj (NodeKey.instruction.inj hkey)

/-- If conditions are told apart, no other value flows from an instruction into a branch. -/
theorem kind_ne_data_of_branches (h : b.build = .ok (g, ds))
    (hc : b.config.conditionEdge = .condition) (he : e ∈ g.edges)
    (hj : j ∈ b.function.instructions) (hbranch : j.branches = true)
    (htarget : g.keyAt? e.target = some j.key) : e.kind ≠ .data := by
  intro hk
  have hv : e.carriesValue = true := by rw [Edge.carriesValue, hk]; rfl
  obtain ⟨pre, block, j', post, s, s', new, hsched, hvisit, hnew⟩ :=
    exists_visit_of_mem_edges h he (by simp [hk])
  have hnode := hvisit.getElem?_adder hnew
  rw [Edge.adder_eq_target (Edge.sort_of_carriesValue hv).2, ← Graph.keyAt?_eq] at hnode
  obtain rfl : j = j' := eq_of_key_eq h hj (by simp [instructions_of_split hsched])
    (Option.some.inj (htarget.symm.trans hnode))
  obtain ⟨x, hx, -, hxkind⟩ := hvisit.exists_supply hnew hv
  have hcondition : b.conditionKind = .condition := by rw [conditionKind, hc]
  have htakes : b.takes (visited pre) j =
      j.condition.toList.filterMap (b.fromValue (visited pre) j .condition) := by
    rw [Instruction.branches] at hbranch
    rw [takes, hcondition]
    cases hop : j.opcode <;> simp_all
  rw [htakes] at hx
  obtain ⟨value, -, hvalue⟩ := List.mem_filterMap.mp hx
  rw [fromValue] at hvalue
  cases hclass : b.resolver.classify value none with
  | instruction producer =>
    rw [hclass] at hvalue
    dsimp only at hvalue
    rw [fromInstruction] at hvalue
    split at hvalue
    · obtain rfl := Option.some.inj hvalue
      simp [hk] at hxkind
    · cases hvalue
  | parameter name =>
    rw [hclass] at hvalue
    obtain rfl := Option.some.inj hvalue
    simp [hk, fromParameter] at hxkind
  | _ => simp [hclass] at hvalue

/-- What was a condition can be told from where the edge leads. -/
theorem relabel_asData (h : b.build = .ok (g, ds)) (hc : b.config.conditionEdge = .condition)
    (he : e ∈ g.edges) : g.asData.relabel b.function e.asData = e := by
  rw [Graph.relabel]
  by_cases hk : e.kind = .condition
  · obtain ⟨-, i, j, ⟨pre, mid, post, hwalks⟩, -, hop, hconnects⟩ :=
      (edgesTyped_of_build h).condition e he hk
    have hinto : g.asData.IntoBranch b.function e.asData := by
      refine ⟨i, by simp [hwalks], j, by simp [hwalks], ?_, hconnects⟩
      rcases hop with hop | hop <;> simp [Instruction.branches, hop]
    rw [if_pos ⟨by rw [Edge.asData, hk]; rfl, hinto⟩, Edge.asData, ← hk]
  · rw [Edge.asData_eq_self hk, if_neg]
    rintro ⟨hdata, i, -, j, hj, hbranch, -, htarget⟩
    exact kind_ne_data_of_branches h hc he hj hbranch htarget hdata

/-! ### Documents -/

/-- A data edge leads into a branch exactly if its link does, since instructions differ in their
names. -/
theorem intoBranch_linkOf_iff (h : b.build = .ok (g, ds)) (he : e ∈ g.edges)
    (hk : e.kind = .data) : (g.linkOf e).IntoBranch b.function ↔ g.IntoBranch b.function e := by
  obtain ⟨i, j, ⟨pre, mid, post, hwalks⟩, -, hconnects⟩ :=
    (edgesTyped_of_build h).data e he hk
  have hi : i ∈ b.function.instructions := by simp [hwalks]
  have hj : j ∈ b.function.instructions := by simp [hwalks]
  constructor
  · rintro ⟨-, -, j', hj', hbranch, -, htarget⟩
    have hid : j.key.id = j'.key.id := by rw [← htarget, Graph.linkOf_of_connects hconnects]
    have hkey : j.id = j'.id := UInt32.toNat_inj.mp (toString_inj hid)
    obtain rfl : j = j' := eq_of_key_eq h hj hj' (congrArg NodeKey.instruction hkey)
    exact ⟨i, hi, j, hj, hbranch, hconnects⟩
  · rintro ⟨i', hi', j', hj', hbranch, hconnects'⟩
    rw [Graph.linkOf_of_connects hconnects']
    exact ⟨i', hi', j', hj', hbranch, rfl, rfl⟩

/-- The link of an edge gets another kind just as the edge does. -/
theorem linkOf_relabel (h : b.build = .ok (g, ds)) (he : e ∈ g.edges) :
    g.linkOf (g.relabel b.function e) = (g.linkOf e).relabel b.function := by
  rw [Graph.relabel, Link.relabel]
  by_cases hk : e.kind = .data
  · by_cases hinto : g.IntoBranch b.function e
    · rw [if_pos ⟨hk, hinto⟩, if_pos ⟨hk, (intoBranch_linkOf_iff h he hk).mpr hinto⟩]
      rfl
    · rw [if_neg fun hboth => hinto hboth.2,
        if_neg fun hboth => hinto ((intoBranch_linkOf_iff h he hk).mp hboth.2)]
  · rw [if_neg fun hboth => hk hboth.1, if_neg fun hboth => hk hboth.1]

/-- Without conditions on either side, different links stay different. -/
theorem relabel_inj {f : Function} {l l' : Link} (hl : l.kind ≠ .condition)
    (hl' : l'.kind ≠ .condition) (heq : l.relabel f = l'.relabel f) : l = l' := by
  obtain ⟨source, target, kind⟩ := l
  obtain ⟨source', target', kind'⟩ := l'
  simp only [Link.relabel] at heq
  split at heq <;> split at heq <;> simp_all

/-- The document of a graph with conditions is that of the graph without them, relabelled. -/
theorem ofGraph_relabel {g' : Graph} (h : b.build = .ok (g, ds))
    (hd : ∀ e ∈ g.edges, e.kind ≠ .condition) (hc' : g'.Closed)
    (hname : g'.functionName = g.functionName) (hslots : g'.slots = g.slots)
    (hedges : g'.edges = g.edges.map (g.relabel b.function)) :
    Document.ofGraph g' = (Document.ofGraph g).map (Document.relabel b.function) := by
  have hlinks : g'.edges.map g'.linkOf = (g.edges.map g.linkOf).map (Link.relabel b.function) := by
    have hlinkOf : g'.linkOf = g.linkOf := by
      funext e
      simp only [Graph.linkOf, Graph.idAt, Graph.keyAt?, hslots]
    rw [hlinkOf, hedges, List.map_map, List.map_map]
    exact List.map_congr_left fun e he => linkOf_relabel h he
  have hkind : ∀ l ∈ g.edges.map g.linkOf, l.kind ≠ .condition := by
    intro l hl
    obtain ⟨e, he, rfl⟩ := List.mem_map.mp hl
    exact hd e he
  have hdups : (g'.edges.map g'.linkOf).eraseDups =
      (g.edges.map g.linkOf).eraseDups.map (Link.relabel b.function) := by
    rw [hlinks]
    exact eraseDups_map fun l hl l' hl' => relabel_inj (hkind l hl) (hkind l' hl')
  rw [Document.ofGraph_of_closed hc', Document.ofGraph_of_closed (closed_of_build h), hslots, hname]
  cases firstRepeated (g.slots.map fun s => s.key.id) with
  | some id => rfl
  | none =>
    exact congrArg (fun links => (Except.ok
      { functionName := g.functionName
        nodes := g.slots.map fun s => s.key.id
        links := links
        nodesInfo := g.slots.map fun s => (s.key.id, s.attrs) } : Except Error Document)) hdups

/-- The option only relabels. Without a kind of their own for conditions and with it, a function has
no graph for the same reason, or it has two graphs with the same nodes, the same warnings and the
same edges in the same order, except that the data edges from an instruction into a `br` or `switch`
are conditions in the second one. The two documents differ in the same links. -/
theorem build_conditions (b : Builder) :
    (∃ e, (b.withConditions .data).build = .error e ∧
      (b.withConditions .condition).build = .error e) ∨
      ∃ g g' ds, (b.withConditions .data).build = .ok (g, ds) ∧
        (b.withConditions .condition).build = .ok (g', ds) ∧
        g'.functionName = g.functionName ∧ g'.slots = g.slots ∧
        (∀ e ∈ g.edges, e.kind ≠ .condition) ∧
        g'.edges = g.edges.map (g.relabel b.function) ∧
        Document.ofGraph g' = (Document.ofGraph g).map (Document.relabel b.function) := by
  have hforget : (b.withConditions .data).build =
      (b.withConditions .condition).build.map fun r => (r.1.asData, r.2) :=
    (b.withConditions .condition).build_withConditions_data
  cases h : (b.withConditions .condition).build with
  | error e =>
    rw [h] at hforget
    exact Or.inl ⟨e, hforget, rfl⟩
  | ok r =>
    obtain ⟨g', ds⟩ := r
    rw [h] at hforget
    have hbuild : (b.withConditions .data).build = .ok (g'.asData, ds) := hforget
    have hdata : ∀ e ∈ g'.asData.edges, e.kind ≠ .condition := by
      intro e he
      obtain ⟨e', -, rfl⟩ := List.mem_map.mp he
      exact e'.kind.asData_ne
    have hedges : g'.edges = g'.asData.edges.map (g'.asData.relabel b.function) := by
      have hself : ∀ e ∈ g'.edges, g'.asData.relabel b.function e.asData = e :=
        fun e he => relabel_asData (b := b.withConditions .condition) h rfl he
      rw [Graph.asData, List.map_map]
      exact (List.map_id g'.edges).symm.trans (List.map_congr_left fun e he => (hself e he).symm)
    exact Or.inr ⟨g'.asData, g', ds, hbuild, rfl, rfl, rfl, hdata, hedges,
      ofGraph_relabel (b := b.withConditions .data) hbuild hdata (closed_of_build h) rfl rfl
        hedges⟩

/-- The loop decides by a comparison, and all that the option changes is the edge from there. -/
theorem build_conditions_of_loopExample :
    ∃ g g' ds, (loopExample.withConditions .data).build = .ok (g, ds) ∧
      (loopExample.withConditions .condition).build = .ok (g', ds) ∧
      g'.edges = g.edges.map (g.relabel loopExample.function) ∧
      g.hasEdge (.instruction 3) (.instruction 4) .data ∧
      g'.hasEdge (.instruction 3) (.instruction 4) .condition := by
  have hdata : ((loopExample.withConditions .data).build.toOption.map fun r =>
      r.1.hasEdge (.instruction 3) (.instruction 4) .data) = some true := by decide +kernel
  have hcondition : ((loopExample.withConditions .condition).build.toOption.map fun r =>
      r.1.hasEdge (.instruction 3) (.instruction 4) .condition) = some true := by decide +kernel
  rcases build_conditions loopExample with ⟨e, he, -⟩ | ⟨g, g', ds, h, h', -, -, -, hedges, -⟩
  · simp [he, Except.toOption] at hdata
  · rw [h] at hdata
    rw [h'] at hcondition
    exact ⟨g, g', ds, h, h', hedges, Option.some.inj hdata, Option.some.inj hcondition⟩

end Builder

end InstrGraph

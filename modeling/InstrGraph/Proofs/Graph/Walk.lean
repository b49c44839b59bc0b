import InstrGraph.Proofs.Graph.Values
import Mathlib.Tactic.SplitIfs

/-!
# One step of the walk

An instruction is visited once. It is refused if its id has been used, if its parts do not fit its
opcode (`Instruction.shapeFault?`), or if it may go to a block that is not there; else its visit
adds a node and edges, and `walkInstruction_of_shaped` tells in which order.

`walkInstruction_spec` says once what the visit does to the graph, whatever the opcode: which nodes
it makes, whom the new edges belong to, and what they are.
-/

namespace InstrGraph

/-- The sequential edges from some nodes into a node. -/
def sequentialEdges (sources : List Nat) (n : Nat) : List Edge :=
  sources.map fun m => ⟨m, n, .sequential⟩

section

variable {n : Nat} {e : Edge} {edges : List Edge} {sources : List Nat}

/-- A sequential edge into a node is added on the visit to that node. -/
theorem isSequential_of_mem (h : e ∈ sequentialEdges sources n) :
    e.isSequential = true ∧ e.adder = n := by
  obtain ⟨m, -, rfl⟩ := List.mem_map.mp h
  exact ⟨rfl, rfl⟩

/-- All of these edges are sequential. -/
theorem filter_isSequential_sequentialEdges (sources : List Nat) (n : Nat) :
    (sequentialEdges sources n).filter Edge.isSequential = sequentialEdges sources n :=
  List.filter_eq_self.mpr fun _ he => (isSequential_of_mem he).1

/-- None of these edges carries a value. -/
theorem filter_carriesValue_sequentialEdges (sources : List Nat) (n : Nat) :
    (sequentialEdges sources n).filter Edge.carriesValue = [] :=
  List.filter_eq_nil_iff.mpr fun _ he => by
    simp [Edge.sort_of_isSequential (isSequential_of_mem he).1]

/-- None of these edges is one of control. -/
theorem filter_isControl_sequentialEdges (sources : List Nat) (n : Nat) :
    (sequentialEdges sources n).filter Edge.isControl = [] :=
  List.filter_eq_nil_iff.mpr fun _ he => by
    simp [Edge.sort_of_isSequential (isSequential_of_mem he).1]

/-- Of the edges that feed a node, all carry values. -/
theorem filter_of_feeds (h : ∀ e ∈ edges, e.Feeds n) :
    edges.filter Edge.isSequential = [] ∧ edges.filter Edge.carriesValue = edges ∧
      edges.filter Edge.isControl = [] :=
  ⟨List.filter_eq_nil_iff.mpr fun e he => by simp [(h e he).not_isSequential],
    List.filter_eq_self.mpr fun e he => (h e he).2,
    List.filter_eq_nil_iff.mpr fun e he => by simp [(h e he).not_isControl]⟩

/-- Of the edges by which control leaves a node, all carry control. -/
theorem filter_of_controls (h : ∀ e ∈ edges, e.Controls n) :
    edges.filter Edge.isSequential = [] ∧ edges.filter Edge.carriesValue = [] ∧
      edges.filter Edge.isControl = edges :=
  ⟨List.filter_eq_nil_iff.mpr fun e he => by simp [(h e he).not_isSequential],
    List.filter_eq_nil_iff.mpr fun e he => by simp [(h e he).not_carriesValue],
    List.filter_eq_self.mpr fun e he => (h e he).isControl⟩

end

/-! ### Instructions by what their visit does -/

namespace Instruction

/-- A terminator that everything pending flows into. -/
def gathers (i : Instruction) : Bool :=
  match i.opcode with
  | .ret | .br | .unreachable | .invoke => true
  | .switch | .call | .other _ => false

/-- What everything pending flows into is a terminator. -/
theorem isTerminator_of_gathers (i : Instruction) (h : i.gathers = true) :
    i.isTerminator = true := by
  rw [gathers] at h
  rw [isTerminator]
  cases hop : i.opcode <;> simp_all [Opcode.isTerminator]

/-- The labels that control may flow to from the instruction. -/
def successors (i : Instruction) : List String :=
  match i.opcode with
  | .br | .switch | .invoke => i.targets
  | .ret | .unreachable | .call | .other _ => []

/-- An instruction that is no terminator has no targets. -/
theorem successors_of_not_isTerminator (i : Instruction) (h : i.isTerminator = false) :
    i.successors = [] := by
  rw [isTerminator] at h
  rw [successors]
  cases hop : i.opcode <;> simp_all [Opcode.isTerminator]

/-- What is wrong with the parts of an instruction, given its opcode. -/
def shapeFault? (i : Instruction) : Option Malformation :=
  match i.opcode with
  | .br =>
    if i.targets.length = 0 then some .brWithoutTargets
    else if i.targets.length > 2 then some .brWithManyTargets
    else if i.targets.length = 2 ∧ i.condition = none then some .brWithoutCondition
    else none
  | .switch =>
    if i.condition = none then some .switchWithoutCondition
    else if i.targets = [] then some .switchWithoutTargets
    else none
  | .invoke => if i.targets = [] then some .invokeWithoutTargets else none
  | .ret | .unreachable | .call | .other _ => none

end Instruction

/-- The node of a block. -/
def Block.key (block : Block) : NodeKey := .block (Token.normalizeLabel block.label)

/-- The node of an instruction. -/
def Instruction.key (i : Instruction) : NodeKey := .instruction i.id

namespace BuildState

variable {s s' : BuildState} {tracked : List NodeKey} {n : Nat}

/-- The edges from all leaves come in the order of the leaves. -/
theorem connect_spec (sources : List Nat) (h : s.graph.Tracks tracked)
    (hs : ∀ m ∈ sources, m < s.graph.slots.length) :
    (sources.foldl (fun s leaf => s.addEdge leaf n .sequential) s).graph.Tracks tracked ∧
      (sources.foldl (fun s leaf => s.addEdge leaf n .sequential) s).graph.keys = s.graph.keys ∧
      (sources.foldl (fun s leaf => s.addEdge leaf n .sequential) s).graph.edges =
        s.graph.edges ++ sequentialEdges sources n := by
  induction sources generalizing s with
  | nil => exact ⟨h, rfl, by simp [sequentialEdges]⟩
  | cons m rest ih =>
    have hstep : (s.addEdge m n .sequential).graph.Tracks tracked :=
      h.addEdge (hs m (by simp)) n .sequential
    have hlen : (s.addEdge m n .sequential).graph.slots.length = s.graph.slots.length := by
      simp [addEdge, Graph.addEdge]
    obtain ⟨htracks, hkeys, hedges⟩ := ih hstep fun m' hm' => by
      rw [hlen]
      exact hs m' (by simp [hm'])
    refine ⟨htracks, hkeys.trans (Graph.keys_addEdge ..), ?_⟩
    rw [List.foldl_cons, hedges]
    simp [addEdge, sequentialEdges]

/-- Connecting the leaves adds an edge from each pending node, in order. -/
theorem connectLeaves_spec (h : s.graph.Tracks tracked)
    (hn : ∀ key ∈ tracked, s.graph.keys[n]? ≠ some key) :
    (s.connectLeaves n).graph.Tracks tracked ∧
      (s.connectLeaves n).graph.keys = s.graph.keys ∧
      (s.connectLeaves n).graph.edges = s.graph.edges ++
        sequentialEdges (s.graph.pending tracked s.graph.edges) n := by
  have hleaves : s.graph.leavesExcept n = s.graph.pending tracked s.graph.edges := by
    rw [Graph.leavesExcept, h.leaves_eq, List.filter_eq_self]
    intro m hm
    obtain ⟨⟨key, hkey, hmk⟩, -⟩ := Graph.mem_pending.mp hm
    have : m ≠ n := fun hmn => hn key hkey (hmn ▸ hmk)
    simpa using this
  have hlt : ∀ m ∈ s.graph.pending tracked s.graph.edges, m < s.graph.slots.length := by
    intro m hm
    obtain ⟨⟨key, -, hmk⟩, -⟩ := Graph.mem_pending.mp hm
    simpa using (List.getElem?_eq_some_iff.mp hmk).1
  unfold connectLeaves
  rw [hleaves]
  exact connect_spec _ h hlt

/-- Connecting the leaves brings no nodes. -/
theorem keys_connectLeaves (s : BuildState) (n : Nat) :
    (s.connectLeaves n).graph.keys = s.graph.keys := by
  have hfold (sources : List Nat) (s : BuildState) :
      (sources.foldl (fun s leaf => s.addEdge leaf n .sequential) s).graph.keys = s.graph.keys := by
    induction sources generalizing s with
    | nil => rfl
    | cons m rest ih => exact (ih _).trans (Graph.keys_addEdge ..)
  exact hfold _ s

end BuildState

namespace Builder

variable {b : Builder} {s s' : BuildState} {tracked : List NodeKey} {n : Nat} {i : Instruction}

/-! ### Control -/

/-- The node of a target. -/
def targetKey (target : String) : NodeKey := .block (Token.normalizeLabel target)

/-- The graph `g'` is `g` with control flowing from the node `n` to the blocks of targets. -/
structure Controlled (tracked : List NodeKey) (n : Nat) (targets : List String) (g g' : Graph) :
    Prop where
  tracks : g'.Tracks tracked
  keys : g'.keys = g.keys
  edges : ∃ new, g'.edges = g.edges ++ new ∧
    new.map (fun e => g.keyAt? e.target) = targets.map (fun t => some (targetKey t)) ∧
    ∀ e ∈ new, e.Controls n

/-- The edges of control that are added are those to the targets, in order. -/
theorem controlled_controlEdges {targets : List String} (hr : controlEdges n s targets = .ok s')
    (h : s.graph.Tracks tracked) (hn : n < s.graph.slots.length) :
    Controlled tracked n targets s.graph s'.graph := by
  induction targets generalizing s with
  | nil =>
    obtain rfl : s = s' := by simpa [controlEdges] using hr
    exact ⟨h, rfl, [], by simp⟩
  | cons target rest ih =>
    rw [controlEdges] at hr
    cases hidx : s.graph.indexOf? (targetKey target) with
    | none =>
      rw [targetKey] at hidx
      simp [hidx] at hr
    | some block =>
      have hkey := (Graph.indexOf?_eq_some_iff h.nodup).mp hidx
      rw [targetKey] at hidx
      simp only [hidx] at hr
      have hlen : n < (s.addEdge n block .control).graph.slots.length := by
        simpa [BuildState.addEdge, Graph.addEdge] using hn
      obtain ⟨htracks, hkeys, new, hnew, hmap, hP⟩ := ih hr (h.addEdge hn block .control) hlen
      have hkeys' : (s.addEdge n block .control).graph.keys = s.graph.keys :=
        Graph.keys_addEdge ..
      refine ⟨htracks, hkeys.trans hkeys', ⟨n, block, .control⟩ :: new, ?_, ?_, ?_⟩
      · simp [hnew, BuildState.addEdge]
      · simp only [Graph.keyAt?_eq, hkeys'] at hmap ⊢
        rw [List.map_cons, List.map_cons, hmap, hkey]
      · intro e he
        rcases List.mem_cons.mp he with rfl | he
        · exact ⟨rfl, rfl⟩
        · exact hP e he

/-- The first target that is no block ends the work. -/
theorem controlEdges_of_find?_eq_some {targets : List String} {target : String}
    (h : targets.find? (fun t => targetKey t ∉ s.graph.keys) = some target) :
    controlEdges n s targets = .error (.unknownTarget target) := by
  induction targets generalizing s with
  | nil => simp at h
  | cons t rest ih =>
    rw [controlEdges]
    by_cases hmem : targetKey t ∈ s.graph.keys
    · obtain ⟨block, hidx⟩ := Option.isSome_iff_exists.mp (Graph.contains_iff.mpr hmem)
      rw [targetKey] at hidx
      rw [hidx]
      refine ih ?_
      simpa [BuildState.addEdge, hmem] using h
    · obtain rfl : t = target := by simpa [hmem] using h
      have hidx := Graph.indexOf?_eq_none_iff.mpr hmem
      rw [targetKey] at hidx
      rw [hidx]

/-- If every target has a node, the edges of control can be added. -/
theorem exists_controlEdges {targets : List String}
    (h : targets.find? (fun t => targetKey t ∉ s.graph.keys) = none) :
    ∃ s', controlEdges n s targets = .ok s' := by
  induction targets generalizing s with
  | nil => exact ⟨s, rfl⟩
  | cons t rest ih =>
    obtain ⟨ht, hrest⟩ : targetKey t ∈ s.graph.keys ∧ ∀ t ∈ rest, targetKey t ∈ s.graph.keys := by
      simpa using h
    obtain ⟨block, hidx⟩ := Option.isSome_iff_exists.mp (Graph.contains_iff.mpr ht)
    rw [targetKey] at hidx
    rw [controlEdges, hidx]
    refine ih ?_
    simpa [BuildState.addEdge] using hrest

/-! ### A visit -/

/-- The state with a node for an instruction. -/
def withNode (b : Builder) (s : BuildState) (i : Instruction) : BuildState :=
  { s with
    graph := (s.graph.ensureNode i.key (.instruction i.text i.opcode.name (b.usesParam i))).1 }

/-- The edges of an instruction with the node `n`: everything pending flows into most terminators,
nothing into a `switch`. -/
def flow (b : Builder) (block : Nat) (blockIds : List UInt32) (s : BuildState) (i : Instruction)
    (n : Nat) : Except Malformation BuildState :=
  if i.gathers then controlEdges n ((b.valueFlow s i n).connectLeaves n) i.successors
  else if i.isTerminator then controlEdges n (b.valueFlow s i n) i.successors
  else .ok (b.plain block blockIds s i n)

section

variable {block : Nat} {blockIds : List UInt32}

/-- A second instruction with the same id is refused. -/
theorem walkInstruction_of_mem (hkey : i.key ∈ s.graph.keys) :
    b.walkInstruction block blockIds s i = .error .duplicateId := by
  have hc : s.graph.contains (.instruction i.id) = true := Graph.contains_iff.mpr hkey
  rw [walkInstruction, if_pos hc]

/-- The node of an instruction is the next one. -/
theorem walkInstruction_of_not_mem (hkey : i.key ∉ s.graph.keys) :
    b.walkInstruction block blockIds s i =
      match i.opcode with
      | .br => b.branch (b.withNode s i) i s.graph.slots.length
      | .switch => b.switch (b.withNode s i) i s.graph.slots.length
      | .ret => .ok (b.ret (b.withNode s i) i s.graph.slots.length)
      | .unreachable => .ok ((b.withNode s i).connectLeaves s.graph.slots.length)
      | .invoke => b.invoke (b.withNode s i) i s.graph.slots.length
      | .call | .other _ =>
        .ok (b.plain block blockIds (b.withNode s i) i s.graph.slots.length) := by
  have hnew : s.graph.contains (.instruction i.id) = false := by
    cases hc : s.graph.contains (.instruction i.id) with
    | false => rfl
    | true => exact absurd (Graph.contains_iff.mp hc) hkey
  have hidx : (s.graph.ensureNode i.key
      (.instruction i.text i.opcode.name (b.usesParam i))).2 = s.graph.slots.length := by
    rw [Graph.ensureNode_of_not_mem hkey]
  rw [← hidx]
  simp only [walkInstruction, hnew]
  rfl

/-- The shape is checked before the edges are added. -/
theorem walkInstruction_of_shapeFault {m : Malformation} (hkey : i.key ∉ s.graph.keys)
    (hm : i.shapeFault? = some m) : b.walkInstruction block blockIds s i = .error m := by
  rw [walkInstruction_of_not_mem hkey]
  rw [Instruction.shapeFault?] at hm
  cases hop : i.opcode with
  | br =>
    simp only [hop] at hm
    cases hc : i.condition with
    | some condition =>
      simp only [branch, hc]
      grind
    | none =>
      simp only [branch, hc]
      grind
  | switch =>
    simp only [hop] at hm
    cases hc : i.condition with
    | some condition => simp_all [switch]
    | none => simp_all [switch]
  | invoke => simp_all [invoke]
  | ret | unreachable | call | other => simp [hop] at hm

/-- An instruction of the right shape gets its edges. -/
theorem walkInstruction_of_shaped (hkey : i.key ∉ s.graph.keys) (hm : i.shapeFault? = none) :
    b.walkInstruction block blockIds s i =
      b.flow block blockIds (b.withNode s i) i s.graph.slots.length := by
  rw [walkInstruction_of_not_mem hkey]
  generalize b.withNode s i = s₀
  generalize s.graph.slots.length = n
  rw [Instruction.shapeFault?] at hm
  cases hop : i.opcode with
  | br =>
    rw [flow, if_pos (by simp [Instruction.gathers, hop])]
    simp only [hop, Instruction.successors, valueFlow] at hm ⊢
    cases hc : i.condition with
    | some condition =>
      simp only [branch, hc]
      grind
    | none =>
      simp only [branch, hc]
      grind
  | switch =>
    rw [flow, if_neg (by simp [Instruction.gathers, hop]),
      if_pos (by simp [Instruction.isTerminator, Opcode.isTerminator, hop])]
    simp only [hop, Instruction.successors, valueFlow] at hm ⊢
    cases hc : i.condition with
    | some condition => simp_all [switch]
    | none => simp [hc] at hm
  | invoke =>
    rw [flow, if_pos (by simp [Instruction.gathers, hop])]
    simp_all [invoke, Instruction.successors, valueFlow]
  | ret | unreachable =>
    rw [flow, if_pos (by simp [Instruction.gathers, hop])]
    simp only [hop, Instruction.successors, valueFlow]
    rfl
  | call | other =>
    rw [flow, if_neg (by simp [Instruction.gathers, hop]),
      if_neg (by simp [Instruction.isTerminator, Opcode.isTerminator, hop])]

end

/-- Some operand of the instruction stands for an instruction of the block. -/
def TakesFrom (b : Builder) (block : Block) (i : Instruction) : Prop :=
  ∃ j ∈ block.instructions, Operand.instruction j.id ∈ b.operandsOf i

instance (b : Builder) (block : Block) (i : Instruction) : Decidable (b.TakesFrom block i) :=
  inferInstanceAs (Decidable (∃ j ∈ block.instructions, _))

/-- An instruction depends on its block if an operand stands for an instruction of it. -/
theorem dependsOn_iff {block : Block} :
    b.dependsOn (block.instructions.map (·.id)) i = true ↔ b.TakesFrom block i := by
  rw [dependsOn, List.any_eq_true]
  constructor
  · rintro ⟨operand, hmem, hid⟩
    cases operand with
    | instruction id =>
      obtain ⟨j, hj, rfl⟩ := List.mem_map.mp (List.contains_iff_mem.mp hid)
      exact ⟨j, hj, hmem⟩
    | _ => simp at hid
  · rintro ⟨j, hj, hmem⟩
    exact ⟨_, hmem, List.contains_iff_mem.mpr (List.mem_map.mpr ⟨j, hj, rfl⟩)⟩

/-- Where the sequential edges into an instruction come from, if `entry` is the node of its block
and `pending` are the nodes that wait for a terminator. -/
def sequentialSources (b : Builder) (block : Block) (i : Instruction) (entry : Nat)
    (pending : List Nat) : List Nat :=
  if i.gathers then pending
  else if i.isTerminator ∨ b.TakesFrom block i then []
  else [entry]

variable {entry : Nat} {block : Block}

/-- The edges that a visit adds: they belong to the instruction, and of each sort there are those
that its opcode and its parts ask for. -/
structure VisitEdges (b : Builder) (tracked : List NodeKey) (block : Block) (i : Instruction)
    (entry : Nat) (s s' : BuildState) (new : List Edge) : Prop where
  edges_eq : s'.graph.edges = s.graph.edges ++ new
  adder : ∀ e ∈ new, e.adder = s.graph.slots.length
  ne_entry : ∀ e ∈ new, e.kind ≠ .entry
  sequential : new.filter Edge.isSequential = sequentialEdges
    (b.sequentialSources block i entry
      (s.graph.pending tracked (s.graph.edges ++ new.filter Edge.carriesValue)))
    s.graph.slots.length
  values : (new.filter Edge.carriesValue).map s'.graph.supplyOf? =
    (b.takes s.graph.walked i).map some
  control : (new.filter Edge.isControl).map (fun e => s'.graph.keyAt? e.target) =
    i.successors.map fun t => some (targetKey t)

/-- Values between two runs of sequential edges, then control: the edges of a visit come so. -/
theorem visitEdges_of_parts (before after : List Nat) {values control : List Edge}
    (hn : s.graph.slots.length = n)
    (hedges : s'.graph.edges = s.graph.edges ++
      (sequentialEdges before n ++ values ++ sequentialEdges after n ++ control))
    (hvalues : ∀ e ∈ values, e.Feeds n) (hcontrol : ∀ e ∈ control, e.Controls n)
    (hsources : before ++ after = b.sequentialSources block i entry
      (s.graph.pending tracked (s.graph.edges ++ values)))
    (hsupplies : values.map s'.graph.supplyOf? = (b.takes s.graph.walked i).map some)
    (htargets : control.map (fun e => s'.graph.keyAt? e.target) =
      i.successors.map fun t => some (targetKey t)) :
    ∃ new, VisitEdges b tracked block i entry s s' new := by
  obtain ⟨hvs, hvv, hvc⟩ := filter_of_feeds hvalues
  obtain ⟨hcs, hcv, hcc⟩ := filter_of_controls hcontrol
  refine ⟨_, hedges, fun e he => ?_, fun e he => ?_, ?_, ?_, ?_⟩
  · rw [hn]
    simp only [List.mem_append] at he
    rcases he with ((he | he) | he) | he
    · exact (isSequential_of_mem he).2
    · exact (hvalues e he).adder
    · exact (isSequential_of_mem he).2
    · exact (hcontrol e he).adder
  · intro hk
    simp only [List.mem_append] at he
    rcases he with ((he | he) | he) | he
    · simpa [Edge.isSequential, hk] using (isSequential_of_mem he).1
    · simpa [Edge.carriesValue, EdgeKind.carriesValue, hk] using (hvalues e he).2
    · simpa [Edge.isSequential, hk] using (isSequential_of_mem he).1
    · simpa [hk] using (hcontrol e he).2
  · simp only [List.filter_append, filter_isSequential_sequentialEdges,
      filter_carriesValue_sequentialEdges, hvs, hcs, hvv, hcv, List.append_nil, List.nil_append]
    rw [← hsources, hn, sequentialEdges, sequentialEdges, sequentialEdges, List.map_append]
  · simpa only [List.filter_append, filter_carriesValue_sequentialEdges, hvv, hcv, List.append_nil,
      List.nil_append] using hsupplies
  · simpa only [List.filter_append, filter_isControl_sequentialEdges, hvc, hcc, List.append_nil,
      List.nil_append] using htargets

/-- What a visit adds: the node of the instruction, nodes of what it takes, and edges. -/
structure Visit (b : Builder) (tracked : List NodeKey) (block : Block) (i : Instruction)
    (entry : Nat) (s s' : BuildState) : Prop where
  fresh : i.key ∉ s.graph.keys
  tracks : s'.graph.Tracks (tracked ++ if i.isTerminator then [] else [i.key])
  keys : s.graph.keys ++ [i.key] <+: s'.graph.keys
  outer : ∀ k ∈ s'.graph.keys, k ∈ s.graph.keys ∨ k = i.key ∨
    k.isOuter = true ∧ ∃ x ∈ b.takes s.graph.walked i, x.key = k
  edges : ∃ new, VisitEdges b tracked block i entry s s' new

/-- The node of an instruction is new: it is the last one and has no edges. -/
structure NodeAdded (tracked : List NodeKey) (i : Instruction) (s s₀ : BuildState) : Prop where
  tracks : s₀.graph.Tracks tracked
  tracked_mem : ∀ key ∈ tracked, key ∈ s.graph.keys
  fresh : i.key ∉ s.graph.keys
  keys : s₀.graph.keys = s.graph.keys ++ [i.key]
  edges : s₀.graph.edges = s.graph.edges

/-- The node of a new instruction is put behind the others, without edges. -/
theorem nodeAdded_withNode (h : s.graph.Tracks tracked) (hkey : i.key ∉ s.graph.keys) :
    NodeAdded tracked i s (b.withNode s i) := by
  refine ⟨h.ensureNode _ _, h.tracked_mem, hkey, ?_, Graph.edges_ensureNode ..⟩
  rw [withNode, Graph.keys_ensureNode, if_neg hkey]

namespace NodeAdded

variable {s₀ s₁ : BuildState} {supplies : List Supply}

/-- There is one node more. -/
theorem length_eq (h : NodeAdded tracked i s s₀) :
    s₀.graph.slots.length = s.graph.slots.length + 1 := by
  rw [← Graph.length_keys, h.keys, List.length_append, Graph.length_keys, List.length_singleton]

/-- The other nodes keep their indices. -/
theorem keys_isPrefix (h : NodeAdded tracked i s s₀) : s.graph.keys <+: s₀.graph.keys :=
  ⟨[i.key], h.keys.symm⟩

/-- The node keeps its place. -/
theorem getElem?_of_isPrefix (h : NodeAdded tracked i s s₀)
    (hk : s₀.graph.keys <+: s₁.graph.keys) :
    s₁.graph.keys[s.graph.slots.length]? = some i.key := by
  refine Graph.getElem?_keys_of_isPrefix hk ?_
  rw [h.keys, ← Graph.length_keys]
  simp

/-- The instructions walked before are those below. The instruction is not below itself. -/
theorem hasWalked (h : NodeAdded tracked i s s₀) : s₀.graph.HasWalked s.graph.walked i.id := by
  intro id hid
  have hne : NodeKey.instruction id ≠ i.key := by
    rw [Instruction.key, ne_eq, NodeKey.instruction.injEq]
    exact fun heq => UInt32.lt_irrefl _ (heq ▸ hid)
  rw [h.keys, Graph.mem_walked]
  simp [hne]

/-- The nodes after values have flowed. -/
theorem outer (h : NodeAdded tracked i s s₀)
    (hv : Graph.Supplied tracked n supplies s₀.graph s₁.graph) :
    ∀ k ∈ s₁.graph.keys, k ∈ s.graph.keys ∨ k = i.key ∨
      k.isOuter = true ∧ ∃ x ∈ supplies, x.key = k := by
  intro k hk
  rcases hv.outer k hk with hk | hk
  · rw [h.keys, List.mem_append, List.mem_singleton] at hk
    exact hk.imp_right Or.inl
  · exact Or.inr (Or.inr hk)

/-- A visit of a terminator that gathers: values, then what is pending, then control. -/
theorem visit_gathers (h : NodeAdded tracked i s s₀) (hg : i.gathers = true)
    (ht : i.isTerminator = true)
    (hr : controlEdges s.graph.slots.length
      ((b.valueFlow s₀ i s.graph.slots.length).connectLeaves s.graph.slots.length)
      i.successors = .ok s') : Visit b tracked block i entry s s' := by
  generalize hn : s.graph.slots.length = n at hr
  have hvalues := supplied_valueFlow (b := b) (n := n) h.tracks h.hasWalked ht
  generalize b.valueFlow s₀ i n = t at hr hvalues
  obtain ⟨values, hvaluesEq, hvaluesMap, hvaluesP⟩ := hvalues.edges
  rw [h.edges] at hvaluesEq
  have hne : ∀ key ∈ tracked, t.graph.keys[n]? ≠ some key := by
    intro key hkey hkn
    rw [← hn, h.getElem?_of_isPrefix hvalues.keys] at hkn
    exact h.fresh (Option.some.inj hkn ▸ h.tracked_mem key hkey)
  obtain ⟨htracks, hkeys, hedges⟩ := BuildState.connectLeaves_spec hvalues.tracks hne
  have hlt : n < (t.connectLeaves n).graph.slots.length := by
    rw [← Graph.length_keys, hkeys]
    exact hn ▸ (List.getElem?_eq_some_iff.mp (h.getElem?_of_isPrefix hvalues.keys)).1
  have hcontrol := controlled_controlEdges hr htracks hlt
  obtain ⟨control, hcontrolEq, hcontrolMap, hcontrolP⟩ := hcontrol.edges
  have hkeys' : s'.graph.keys = t.graph.keys := hcontrol.keys.trans hkeys
  have hpending : t.graph.pending tracked t.graph.edges =
      s.graph.pending tracked (s.graph.edges ++ values) := by
    rw [hvaluesEq]
    exact (Graph.pending_of_isPrefix (h.keys_isPrefix.trans hvalues.keys) hvalues.tracks.nodup
      h.tracked_mem _).symm
  refine ⟨h.fresh, by simpa [ht] using hcontrol.tracks, ?_, hkeys' ▸ h.outer hvalues,
    visitEdges_of_parts [] (s.graph.pending tracked (s.graph.edges ++ values)) hn ?_ hvaluesP
      hcontrolP ?_ ?_ ?_⟩
  · rw [← h.keys, hkeys']
    exact hvalues.keys
  · rw [hcontrolEq, hedges, hpending, hvaluesEq]
    simp only [sequentialEdges, List.map_nil, List.nil_append, List.append_assoc]
  · rw [List.nil_append, sequentialSources, if_pos hg]
  · rwa [Graph.supplyOf?_of_keys_eq hkeys']
  · simpa only [Graph.keyAt?_eq, hcontrol.keys] using hcontrolMap

/-- A visit of a `switch`: values, then control. What is pending stays so. -/
theorem visit_switch (h : NodeAdded tracked i s s₀) (hg : i.gathers = false)
    (ht : i.isTerminator = true)
    (hr : controlEdges s.graph.slots.length (b.valueFlow s₀ i s.graph.slots.length)
      i.successors = .ok s') : Visit b tracked block i entry s s' := by
  generalize hn : s.graph.slots.length = n at hr
  have hvalues := supplied_valueFlow (b := b) (n := n) h.tracks h.hasWalked ht
  generalize b.valueFlow s₀ i n = t at hr hvalues
  obtain ⟨values, hvaluesEq, hvaluesMap, hvaluesP⟩ := hvalues.edges
  have hlt : n < t.graph.slots.length := by
    rw [← Graph.length_keys]
    exact hn ▸ (List.getElem?_eq_some_iff.mp (h.getElem?_of_isPrefix hvalues.keys)).1
  have hcontrol := controlled_controlEdges hr hvalues.tracks hlt
  obtain ⟨control, hcontrolEq, hcontrolMap, hcontrolP⟩ := hcontrol.edges
  refine ⟨h.fresh, by simpa [ht] using hcontrol.tracks, ?_, hcontrol.keys ▸ h.outer hvalues,
    visitEdges_of_parts [] [] hn ?_ hvaluesP hcontrolP ?_ ?_ ?_⟩
  · rw [← h.keys, hcontrol.keys]
    exact hvalues.keys
  · rw [hcontrolEq, hvaluesEq, h.edges]
    simp only [sequentialEdges, List.map_nil, List.nil_append, List.append_nil, List.append_assoc]
  · simp [sequentialSources, hg, ht]
  · rwa [Graph.supplyOf?_of_keys_eq hcontrol.keys]
  · simpa only [Graph.keyAt?_eq, hcontrol.keys] using hcontrolMap

/-- Before its values flow, any other instruction may be entered from its block. -/
theorem exists_plain (h : NodeAdded tracked i s s₀) (b : Builder) (block : Block)
    (hg : i.gathers = false) (ht : i.isTerminator = false)
    (hentry : entry < s.graph.slots.length) :
    ∃ s₁ : BuildState,
      b.plain entry (block.instructions.map (·.id)) s₀ i s.graph.slots.length =
        { b.operandFlow s₁ i s.graph.slots.length with
          graph := (b.operandFlow s₁ i s.graph.slots.length).graph.trackLeaf
            s.graph.slots.length } ∧
      s₁.graph.Tracks tracked ∧ s₁.graph.keys = s₀.graph.keys ∧
      s₁.graph.edges = s.graph.edges ++
        sequentialEdges (b.sequentialSources block i entry []) s.graph.slots.length := by
  by_cases hd : b.TakesFrom block i
  · refine ⟨s₀, ?_, h.tracks, rfl, ?_⟩
    · simp only [plain, dependsOn_iff.mpr hd, if_true]
    · simp [h.edges, sequentialSources, hg, hd, sequentialEdges]
  · have hlt : entry < s₀.graph.slots.length := by
      rw [h.length_eq]
      omega
    refine ⟨s₀.addEdge entry s.graph.slots.length .sequential, ?_, h.tracks.addEdge hlt _ _,
      Graph.keys_addEdge .., ?_⟩
    · simp only [plain, Bool.eq_false_iff.mpr fun hc => hd (dependsOn_iff.mp hc)]
      rfl
    · simp [BuildState.addEdge, h.edges, sequentialSources, hg, ht, hd, sequentialEdges]

/-- A visit of any other instruction: its block or nothing, then values. It is pending itself. -/
theorem visit_plain (h : NodeAdded tracked i s s₀) (hg : i.gathers = false)
    (ht : i.isTerminator = false) (hentry : entry < s.graph.slots.length) :
    Visit b tracked block i entry s
      (b.plain entry (block.instructions.map (·.id)) s₀ i s.graph.slots.length) := by
  obtain ⟨s₁, hplain, htracks, hkeys, hedges⟩ := h.exists_plain b block hg ht hentry
  generalize hn : s.graph.slots.length = n at hplain hedges ⊢
  have hwalked : s₁.graph.HasWalked s.graph.walked i.id := by
    rw [Graph.HasWalked, hkeys]
    exact h.hasWalked
  have hflow := supplied_operandFlow (b := b) (n := n) htracks hwalked
  rw [hplain]
  generalize b.operandFlow s₁ i n = t at hflow
  obtain ⟨values, hvaluesEq, hvaluesMap, hvaluesP⟩ := hflow.edges
  have hprefix : s₀.graph.keys <+: t.graph.keys := hkeys ▸ hflow.keys
  have hnode := h.getElem?_of_isPrefix hprefix
  rw [hn] at hnode
  have hkeys' : (t.graph.trackLeaf n).keys = t.graph.keys := Graph.keys_trackLeaf ..
  have htakes : b.takes s.graph.walked i = b.takesOperands s.graph.walked i :=
    b.takes_of_not_isTerminator s.graph.walked ht
  refine ⟨h.fresh, by simpa [ht] using hflow.tracks.trackLeaf hnode, ?_, ?_,
    visitEdges_of_parts (b.sequentialSources block i entry []) [] hn ?_ hvaluesP
      (List.forall_mem_nil _) ?_ ?_ ?_⟩
  · rw [← h.keys, hkeys']
    exact hprefix
  · rw [hkeys', htakes]
    intro k hk
    refine (hflow.outer k hk).elim (fun hk => ?_) fun hk => Or.inr (Or.inr hk)
    rw [hkeys, h.keys, List.mem_append, List.mem_singleton] at hk
    exact hk.imp_right Or.inl
  · simp [sequentialEdges, hvaluesEq, hedges]
  · simp [sequentialSources, hg]
  · rwa [Graph.supplyOf?_of_keys_eq hkeys', htakes]
  · simp [i.successors_of_not_isTerminator ht]

end NodeAdded

/-- What walking over an instruction does to a graph that keeps track of its nodes. -/
theorem walkInstruction_spec
    (hr : b.walkInstruction entry (block.instructions.map (·.id)) s i = .ok s')
    (h : s.graph.Tracks tracked) (hentry : entry < s.graph.slots.length) :
    Visit b tracked block i entry s s' := by
  have hkey : i.key ∉ s.graph.keys := fun hkey => by
    rw [walkInstruction_of_mem hkey] at hr
    simp at hr
  have hadded : NodeAdded tracked i s (b.withNode s i) := nodeAdded_withNode h hkey
  cases hm : i.shapeFault? with
  | some m =>
    rw [walkInstruction_of_shapeFault hkey hm] at hr
    simp at hr
  | none =>
    rw [walkInstruction_of_shaped hkey hm, flow] at hr
    split_ifs at hr with hg ht
    · exact hadded.visit_gathers hg (i.isTerminator_of_gathers hg) hr
    · exact hadded.visit_switch (Bool.eq_false_iff.mpr hg) ht hr
    · obtain rfl := Except.ok.inj hr
      exact hadded.visit_plain (Bool.eq_false_iff.mpr hg) (Bool.eq_false_iff.mpr ht) hentry

end Builder

end InstrGraph

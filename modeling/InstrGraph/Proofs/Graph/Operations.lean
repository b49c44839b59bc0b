import InstrGraph.Proofs.FirstBy
import InstrGraph.Proofs.Graph.Document
import Mathlib.Data.List.GetD

/-!
# The document of a graph that operations have made

A graph is made from the empty one by adding nodes and edges and by tracking leaves. What such a
sequence of operations makes can be read off the sequence (`Made`): the nodes are those that were
asked for, each where and as it was asked for first, and the edges are those that were added, in
this order. One operation keeps this true (`Made.step`), so a run of them does (`made_of_run?`).

From that, `Document.ofGraph_of_operations` says what the document of such a graph is, and when it
has none. Only two nodes of one name are in the way; that an end of a link is no node never
happens.
-/

namespace InstrGraph

/-- An item that stands before itself, with no such item further to the left. -/
def IsFirstRepeated (xs : List String) (x : String) : Prop :=
  ∃ front back, xs = front ++ x :: back ∧ front.Nodup ∧ x ∈ front

/-- What the search for a repeated item finds has been seen before it, and nothing was repeated
before. -/
theorem firstRepeated_go_eq_some {seen xs : List String} {x : String}
    (h : firstRepeated.go seen xs = some x) :
    ∃ front back, xs = front ++ x :: back ∧ front.Nodup ∧ (∀ y ∈ front, y ∉ seen) ∧
      (x ∈ seen ∨ x ∈ front) := by
  induction xs generalizing seen with
  | nil => cases h
  | cons y rest ih =>
    rw [firstRepeated.go] at h
    by_cases hy : y ∈ seen
    · rw [if_pos (by simpa using hy)] at h
      obtain rfl := Option.some.inj h
      exact ⟨[], rest, rfl, List.nodup_nil, by simp, .inl hy⟩
    · rw [if_neg (by simpa using hy)] at h
      obtain ⟨front, back, rfl, hnodup, hnew, hx⟩ := ih h
      have hfront : y ∉ front := fun hmem => hnew y hmem List.mem_cons_self
      refine ⟨y :: front, back, rfl, List.nodup_cons.mpr ⟨hfront, hnodup⟩, ?_, ?_⟩
      · rintro z hz hseen
        rcases List.mem_cons.mp hz with rfl | hz
        · exact hy hseen
        · exact hnew z hz (List.mem_cons_of_mem _ hseen)
      · rcases hx with hx | hx
        · rcases List.mem_cons.mp hx with rfl | hx
          · exact .inr List.mem_cons_self
          · exact .inl hx
        · exact .inr (List.mem_cons_of_mem _ hx)

/-- What is found is the first item that stands before itself. -/
theorem isFirstRepeated_of_firstRepeated {xs : List String} {x : String}
    (h : firstRepeated xs = some x) : IsFirstRepeated xs x := by
  obtain ⟨front, back, hxs, hnodup, -, hx⟩ := firstRepeated_go_eq_some h
  exact ⟨front, back, hxs, hnodup, hx.resolve_left (by simp)⟩

/-! ### Operations -/

namespace Graph

/-- What can be done to a graph from outside. -/
inductive Op where
  | ensureNode (key : NodeKey) (attrs : NodeAttrs)
  | addEdge (source target : Nat) (kind : EdgeKind)
  | enterBlock (node : Nat)
  | trackLeaf (node : Nat)

namespace Op

/-- The node that an operation asks for. -/
def node? : Op → Option (NodeKey × NodeAttrs)
  | ensureNode key attrs => some (key, attrs)
  | _ => none

/-- The edge that an operation adds. -/
def edge? : Op → Option Edge
  | addEdge source target kind => some ⟨source, target, kind⟩
  | _ => none

/-- The nodes that an operation takes are there. -/
def Fits (g : Graph) : Op → Prop
  | ensureNode _ _ => True
  | addEdge source target _ => source < g.slots.length ∧ target < g.slots.length
  | enterBlock node => node < g.slots.length
  | trackLeaf node => node < g.slots.length

instance (g : Graph) : DecidablePred (Fits g) := fun op => by
  cases op <;> unfold Fits <;> infer_instance

end Op

/-- Do one thing to a graph. -/
def apply (g : Graph) : Op → Graph
  | .ensureNode key attrs => (g.ensureNode key attrs).1
  | .addEdge source target kind => g.addEdge source target kind
  | .enterBlock node => g.enterBlock node
  | .trackLeaf node => g.trackLeaf node

/-- Do one thing to a graph, unless it is about a node that is not there. -/
def step? (g : Graph) (op : Op) : Option Graph := if op.Fits g then some (g.apply op) else none

/-- Do several things, one after another, to the empty graph of a function. -/
def run? (name : String) (ops : List Op) : Option Graph := ops.foldlM step? (.empty name)

/-- The last operation is done to what the others make. -/
theorem run?_concat (name : String) (ops : List Op) (op : Op) :
    run? name (ops ++ [op]) = (run? name ops).bind fun g => g.step? op := by
  rw [run?, List.foldlM_append]
  refine congrArg _ (funext fun g => ?_)
  rw [List.foldlM_cons]
  exact bind_pure _

/-- The nodes with their attributes, in the order in which they were added. -/
def described (g : Graph) : List (NodeKey × NodeAttrs) := g.slots.map fun s => (s.key, s.attrs)

/-- The keys of a graph are those of its nodes with their attributes. -/
theorem keys_eq_described (g : Graph) : g.keys = g.described.map Prod.fst := by
  simp [keys, described]

/-- Every slot has a description. -/
@[simp] theorem length_described (g : Graph) : g.described.length = g.slots.length := by
  simp [described]

/-- An edge does not change the nodes and their attributes. -/
@[simp] theorem described_addEdge (g : Graph) (s t : Nat) (k : EdgeKind) :
    (g.addEdge s t k).described = g.described := by
  refine List.ext_getElem? fun i => ?_
  simp only [described, addEdge, List.getElem?_map, List.getElem?_modify]
  cases g.slots[i]? with
  | none => rfl
  | some slot => by_cases hi : s = i <;> simp [hi]

/-- Tracking a leaf does not change the nodes and their attributes. -/
@[simp] theorem described_trackLeaf (g : Graph) (i : Nat) :
    (g.trackLeaf i).described = g.described := by
  unfold trackLeaf
  split <;> rfl

/-- A node is described as it was asked for first. -/
theorem described_ensureNode (g : Graph) (key : NodeKey) (attrs : NodeAttrs) :
    (g.ensureNode key attrs).1.described =
      if key ∈ g.keys then g.described else g.described ++ [(key, attrs)] := by
  by_cases h : key ∈ g.keys
  · obtain ⟨i, hi⟩ := Option.isSome_iff_exists.mp (contains_iff.mpr h)
    rw [ensureNode_of_mem hi, if_pos h]
  · rw [ensureNode_of_not_mem h, if_neg h]
    simp [described]

/-- An operation does not change the name of the function. -/
theorem functionName_apply (g : Graph) (op : Op) : (g.apply op).functionName = g.functionName := by
  cases op with
  | ensureNode key attrs =>
    show (g.ensureNode key attrs).1.functionName = g.functionName
    unfold ensureNode
    split <;> rfl
  | addEdge source target kind => rfl
  | enterBlock node | trackLeaf node =>
    show (g.trackLeaf node).functionName = g.functionName
    unfold trackLeaf
    split <;> rfl

/-- An operation describes the node that it asks for, if that is new. -/
theorem described_apply (g : Graph) (op : Op) : (g.apply op).described =
    match op.node? with
    | some n => if n.1 ∈ g.keys then g.described else g.described ++ [n]
    | none => g.described := by
  cases op with
  | ensureNode key attrs => exact described_ensureNode g key attrs
  | addEdge source target kind => exact described_addEdge g source target kind
  | enterBlock node | trackLeaf node => exact described_trackLeaf g node

/-- An operation adds its edge, if it has one, behind the others. -/
theorem edges_apply (g : Graph) (op : Op) : (g.apply op).edges = g.edges ++ op.edge?.toList := by
  cases op with
  | addEdge source target kind => rfl
  | ensureNode key attrs =>
    show (g.ensureNode key attrs).1.edges = g.edges ++ []
    rw [edges_ensureNode, List.append_nil]
  | enterBlock node | trackLeaf node =>
    show (g.trackLeaf node).edges = g.edges ++ []
    rw [edges_trackLeaf, List.append_nil]

/-- No node is ever removed. -/
theorem length_slots_le_apply (g : Graph) (op : Op) :
    g.slots.length ≤ (g.apply op).slots.length := by
  rw [← length_described, ← length_described, described_apply]
  cases op.node? with
  | none => exact le_rfl
  | some n =>
    dsimp only
    split
    · exact le_rfl
    · simp

/-- After an operation that fits, edges have their ends among the nodes. -/
theorem closed_apply {g : Graph} {op : Op} (h : g.Closed) (hfits : op.Fits g) :
    (g.apply op).Closed := by
  have hlength := length_slots_le_apply g op
  intro e he
  rw [edges_apply, List.mem_append, Option.mem_toList] at he
  rcases he with he | he
  · exact ⟨(h e he).1.trans_le hlength, (h e he).2.trans_le hlength⟩
  · cases op with
    | addEdge source target kind =>
      obtain rfl := Option.some.inj he
      exact ⟨hfits.1.trans_le hlength, hfits.2.trans_le hlength⟩
    | ensureNode | enterBlock | trackLeaf => cases he

/-- What a graph is that operations have made of the empty one. -/
structure Made (name : String) (ops : List Op) (g : Graph) : Prop where
  functionName_eq : g.functionName = name
  described_eq : g.described = firstBy Prod.fst (ops.filterMap Op.node?)
  edges_eq : g.edges = ops.filterMap Op.edge?
  closed : g.Closed

variable {name : String} {ops : List Op} {op : Op} {g g' : Graph}

/-- No operations make the empty graph. -/
theorem Made.empty (name : String) : Made name [] (.empty name) where
  functionName_eq := rfl
  described_eq := rfl
  edges_eq := rfl
  closed := by simp [Closed, Graph.empty]

/-- The keys are those of the nodes that were asked for. -/
theorem Made.mem_keys_iff (h : Made name ops g) {key : NodeKey} :
    key ∈ g.keys ↔ key ∈ (ops.filterMap Op.node?).map Prod.fst := by
  rw [keys_eq_described, h.described_eq, mem_map_firstBy]

/-- One more operation makes what it should. -/
theorem Made.step (h : Made name ops g) (hstep : g.step? op = some g') :
    Made name (ops ++ [op]) g' := by
  unfold step? at hstep
  split at hstep
  case isFalse => cases hstep
  case isTrue hfits =>
  obtain rfl := Option.some.inj hstep
  constructor
  · rw [functionName_apply, h.functionName_eq]
  · rw [described_apply, h.described_eq, List.filterMap_append, List.filterMap_cons,
      List.filterMap_nil]
    cases op.node? with
    | none =>
      dsimp only
      rw [List.append_nil]
    | some n =>
      dsimp only
      rw [firstBy_concat]
      exact if_congr h.mem_keys_iff rfl rfl
  · rw [edges_apply, h.edges_eq, List.filterMap_append, List.filterMap_cons, List.filterMap_nil]
    cases op.edge? <;> rfl
  · exact closed_apply h.closed hfits

/-- Every sequence of operations that succeeds makes what it should. -/
theorem made_of_run? (h : run? name ops = some g) : Made name ops g := by
  induction ops using List.reverseRecOn generalizing g with
  | nil =>
    obtain rfl := Option.some.inj h
    exact .empty name
  | append_singleton ops op ih =>
    rw [run?_concat] at h
    obtain ⟨before, hbefore, hstep⟩ := Option.bind_eq_some_iff.mp h
    exact (ih hbefore).step hstep

/-- The id at an index is that of the slot there, and empty if there is none. -/
theorem idAt_eq_getD (g : Graph) (i : Nat) :
    g.idAt i = (g.slots.map fun s => s.key.id).getD i "" := by
  rw [idAt, keyAt?, List.getD_eq_getElem?_getD, List.getElem?_map]
  cases g.slots[i]? <;> rfl

/-! ### Nodes and links of a made graph -/

/-- The nodes that operations have made, by their names. -/
def idsOf (ops : List Op) : List String :=
  (firstBy Prod.fst (ops.filterMap Op.node?)).map fun n => n.1.id

namespace Made

/-- The ids of the slots are those of the nodes that were asked for, each where it came first. -/
theorem map_id_slots (h : Made name ops g) : (g.slots.map fun s => s.key.id) = idsOf ops := by
  rw [idsOf, ← h.described_eq, described, List.map_map]
  rfl

/-- The slots are the nodes that were asked for, each with the attributes that it got first. -/
theorem map_info_slots (h : Made name ops g) : (g.slots.map fun s => (s.key.id, s.attrs)) =
    (firstBy Prod.fst (ops.filterMap Op.node?)).map fun n => (n.1.id, n.2) := by
  rw [← h.described_eq, described, List.map_map]
  rfl

/-- Both ends of every edge are among the nodes. -/
theorem ends_lt (h : Made name ops g) {e : Edge} (he : e ∈ ops.filterMap Op.edge?) :
    e.source < (idsOf ops).length ∧ e.target < (idsOf ops).length := by
  rw [← h.map_id_slots, List.length_map]
  exact h.closed e (h.edges_eq ▸ he)

/-- The links are the edges that were added, with the ids of their ends. -/
theorem map_links (h : Made name ops g) :
    (g.edges.map fun e => (⟨g.idAt e.source, g.idAt e.target, e.kind⟩ : Link)) =
      (ops.filterMap Op.edge?).map fun e =>
        ⟨(idsOf ops).getD e.source "", (idsOf ops).getD e.target "", e.kind⟩ := by
  rw [h.edges_eq]
  refine List.map_congr_left fun e _ => ?_
  rw [idAt_eq_getD, idAt_eq_getD, h.map_id_slots]

/-- The ends of a link are nodes. -/
theorem link_ends_mem (h : Made name ops g) {l : Link}
    (hl : l ∈ (ops.filterMap Op.edge?).map fun e => (⟨(idsOf ops).getD e.source "",
      (idsOf ops).getD e.target "", e.kind⟩ : Link)) :
    l.source ∈ idsOf ops ∧ l.target ∈ idsOf ops := by
  obtain ⟨e, he, rfl⟩ := List.mem_map.mp hl
  obtain ⟨hs, ht⟩ := h.ends_lt he
  rw [List.getD_eq_getElem _ _ hs, List.getD_eq_getElem _ _ ht]
  exact ⟨List.getElem_mem hs, List.getElem_mem ht⟩

end Made

end Graph

/-! ### The document -/

namespace Document

open InstrGraph.Graph (Op)

/-- The two complaints about a graph are told apart by their first letter. -/
theorem duplicateNode_ne_missingEndpoint (name id name' id' : String) :
    duplicateNode name id ≠ missingEndpoint name' id' := by
  intro h
  have htext := congrArg (fun text => text.toList.head?) (Error.invariant.inj h).2
  simp at htext

/-- A document whose nodes are named once and described, and hold the ends of its links, is
valid. -/
theorem validate_of_links {d : Document} (hnodup : d.nodes.Nodup)
    (hlinks : ∀ l ∈ d.links, l.source ∈ d.nodes ∧ l.target ∈ d.nodes)
    (hinfo : d.nodesInfo.map Prod.fst = d.nodes) : d.validate = .ok () := by
  rw [validate, firstRepeated_eq_none_iff.mpr hnodup]
  dsimp only
  rw [hinfo, danglingEnd?_eq_none_iff.mpr hlinks]

/-- What the document of a graph is that operations have made. The nodes are named in the order in
which they were asked for first; there is no document exactly if a name occurs twice, and then the
first such name is complained about. Never is an end of a link missing. The document has every node
once, with the attributes it was added with, and the links are the edges in the order in which they
were added, without those that repeat an earlier one. -/
theorem ofGraph_of_operations {name : String} {ops : List Op} {g : Graph}
    (h : Graph.run? name ops = some g) :
    let nodes := firstBy Prod.fst (ops.filterMap Op.node?)
    let edges := ops.filterMap Op.edge?
    let ids := nodes.map fun n => n.1.id
    ((∃ d, ofGraph g = .ok d) ↔ ids.Nodup) ∧
      (∀ e, ofGraph g = .error e → ∃ id, IsFirstRepeated ids id ∧ e = duplicateNode name id) ∧
      (∀ name' id, ofGraph g ≠ .error (missingEndpoint name' id)) ∧
      (∀ e ∈ edges, e.source < ids.length ∧ e.target < ids.length) ∧
      ∀ d, ofGraph g = .ok d →
        d.functionName = name ∧ d.nodes = ids ∧ d.nodes.Nodup ∧
        d.nodesInfo = nodes.map (fun n => (n.1.id, n.2)) ∧
        d.links = firstBy id (edges.map fun e =>
          ⟨ids.getD e.source "", ids.getD e.target "", e.kind⟩) ∧
        d.validate = .ok () := by
  intro nodes edges ids
  have hmade := Graph.made_of_run? h
  have hclosed : ∀ e ∈ edges, e.source < ids.length ∧ e.target < ids.length :=
    fun e he => hmade.ends_lt he
  have hdocument := ofGraph_of_closed hmade.closed
  rw [hmade.map_id_slots, hmade.map_info_slots, hmade.map_links, hmade.functionName_eq,
    eraseDups_eq_firstBy, show Graph.idsOf ops = ids from rfl] at hdocument
  rw [hdocument]
  cases hrepeated : firstRepeated ids with
  | some id =>
    have hnodup : ¬ ids.Nodup := fun hn => by
      simp [firstRepeated_eq_none_iff.mpr hn] at hrepeated
    refine ⟨iff_of_false (by rintro ⟨d, hd⟩; cases hd) hnodup, ?_, ?_, hclosed, ?_⟩
    · intro e he
      obtain rfl := Except.error.inj he
      exact ⟨id, isFirstRepeated_of_firstRepeated hrepeated, rfl⟩
    · intro name' id' he
      exact duplicateNode_ne_missingEndpoint name id name' id' (Except.error.inj he)
    · intro d hd
      cases hd
  | none =>
    have hnodup : ids.Nodup := firstRepeated_eq_none_iff.mp hrepeated
    refine ⟨iff_of_true ⟨_, rfl⟩ hnodup, by rintro e ⟨⟩, by rintro name' id ⟨⟩, hclosed, ?_⟩
    intro d hd
    obtain rfl := Except.ok.inj hd
    refine ⟨rfl, rfl, hnodup, rfl, rfl, validate_of_links hnodup (fun l hl => ?_) ?_⟩
    · exact hmade.link_ends_mem (mem_firstBy_id.mp hl)
    · simp [ids, nodes]

/-- Two edges of one kind between the same nodes, and a node that is asked for twice. -/
def parallelOps : List Op :=
  [.ensureNode .function (.function 0 1), .ensureNode (.block "%label_0") (.block 1),
    .addEdge 0 1 .entry, .enterBlock 1,
    .ensureNode (.instruction 1) (.instruction "ret" "ret" false),
    .ensureNode (.block "%label_0") (.block 7), .addEdge 1 2 .sequential, .addEdge 0 1 .entry,
    .trackLeaf 2]

/-- A graph to which nodes and edges are added repeatedly has each of them once in its document. -/
theorem ofGraph_of_parallelOps :
    ∃ g d, Graph.run? "f" parallelOps = some g ∧ ofGraph g = .ok d ∧
      d.nodes = ["function_start", "%label_0", "1"] ∧
      d.links = [⟨"function_start", "%label_0", .entry⟩, ⟨"%label_0", "1", .sequential⟩] ∧
      d.validate = .ok () := by
  obtain ⟨g, hg⟩ : ∃ g, Graph.run? "f" parallelOps = some g := ⟨_, rfl⟩
  obtain ⟨hok, -, -, -, hdocument⟩ := ofGraph_of_operations hg
  obtain ⟨d, hd⟩ := hok.mpr (by decide)
  obtain ⟨-, hnodes, -, -, hlinks, hvalid⟩ := hdocument d hd
  exact ⟨g, d, hg, hd, hnodes.trans (by decide), hlinks.trans (by decide), hvalid⟩

/-- A block that is called like an instruction: the graph is there, and has no document. -/
example : (Graph.run? "f" [.ensureNode (.instruction 1) (.instruction "ret" "ret" false),
    .ensureNode (.block "1") (.block 0)]).map (fun g => (ofGraph g).toOption.isSome) =
      some false := by decide

end Document

end InstrGraph

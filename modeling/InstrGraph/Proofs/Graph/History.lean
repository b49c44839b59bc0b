import InstrGraph.Proofs.Graph.Arena
import InstrGraph.Proofs.Graph.Operations
import Mathlib.Logic.Function.Basic

/-!
# The leaves and the places of a graph that operations have made

Which nodes and edges operations have made can be read off the operations (`Graph.Made`). So can the
leaves: they are the nodes that an operation has tracked and that no edge leaves
(`Follows.mem_leaves`). This rests on `Follows`, which every operation keeps true (`Follows.apply`).

A graph finds a node by a search through its slots. A table of places does the same without a
search: `IndexedGraph` keeps one beside the graph, and both make the same of any operations
(`run?_eq_map_indexed`).
-/

namespace InstrGraph

namespace Graph

/-- The node that an operation tracks. To begin a block is to track its node. -/
def Op.tracked? : Op → Option Nat
  | enterBlock node => some node
  | trackLeaf node => some node
  | _ => none

/-- The nodes that operations track, each as often as it is tracked. -/
def trackedBy (ops : List Op) : List Nat := ops.filterMap Op.tracked?

/-- What is tracked after one more operation. -/
theorem trackedBy_concat (ops : List Op) (op : Op) :
    trackedBy (ops ++ [op]) = trackedBy ops ++ op.tracked?.toList := by
  rw [trackedBy, trackedBy, List.filterMap_append, List.filterMap_cons, List.filterMap_nil]
  cases op.tracked? <;> rfl

variable {name : String} {ops : List Op} {op : Op} {g g' : Graph}

/-! ### The leaves -/

/-- The nodes that operations track are there, and the counters and leaves are those of a graph
where just these nodes are tracked. -/
structure Follows (ops : List Op) (g : Graph) : Prop where
  lt_length : ∀ n ∈ trackedBy ops, n < g.keys.length
  tracks : g.Tracks ((trackedBy ops).filterMap (g.keys[·]?))

namespace Follows

/-- No operations track nothing in the empty graph. -/
theorem empty (name : String) : Follows [] (.empty name) where
  lt_length := by simp [trackedBy]
  tracks := .empty name

/-- Nodes that are added later do not rename the nodes that are tracked. -/
theorem filterMap_keys_of_isPrefix (h : Follows ops g) (hk : g.keys <+: g'.keys) :
    (trackedBy ops).filterMap (g'.keys[·]?) = (trackedBy ops).filterMap (g.keys[·]?) := by
  refine List.filterMap_congr fun n hn => ?_
  rw [List.getElem?_eq_getElem (h.lt_length n hn)]
  exact List.prefix_iff_getElem?.mp hk n (h.lt_length n hn)

/-- A graph still follows the operations when a node is asked for. -/
theorem ensureNode (h : Follows ops g) (key : NodeKey) (attrs : NodeAttrs) :
    Follows (ops ++ [.ensureNode key attrs]) (g.ensureNode key attrs).1 := by
  have htracked : trackedBy (ops ++ [.ensureNode key attrs]) = trackedBy ops := by
    simp [trackedBy_concat, Op.tracked?]
  have hprefix : g.keys <+: (g.ensureNode key attrs).1.keys := by
    rw [keys_ensureNode]
    split
    · exact List.prefix_refl _
    · exact List.prefix_append _ _
  refine ⟨fun n hn => ?_, ?_⟩
  · rw [htracked] at hn
    exact (h.lt_length n hn).trans_le hprefix.length_le
  · rw [htracked, h.filterMap_keys_of_isPrefix hprefix]
    exact h.tracks.ensureNode key attrs

/-- A graph still follows the operations when an edge is added. -/
theorem addEdge (h : Follows ops g) {source : Nat} (hs : source < g.slots.length) (target : Nat)
    (kind : EdgeKind) :
    Follows (ops ++ [.addEdge source target kind]) (g.addEdge source target kind) := by
  have htracked : trackedBy (ops ++ [.addEdge source target kind]) = trackedBy ops := by
    simp [trackedBy_concat, Op.tracked?]
  refine ⟨?_, ?_⟩
  · rw [htracked, keys_addEdge]
    exact h.lt_length
  · rw [htracked, keys_addEdge]
    exact h.tracks.addEdge hs target kind

/-- A graph still follows the operations when a leaf is tracked. -/
theorem trackLeaf (h : Follows ops g) {n : Nat} (hn : n < g.slots.length)
    (hop : op.tracked? = some n) : Follows (ops ++ [op]) (g.trackLeaf n) := by
  have hlt : n < g.keys.length := by simpa using hn
  have htracked : trackedBy (ops ++ [op]) = trackedBy ops ++ [n] := by
    rw [trackedBy_concat, hop, Option.toList_some]
  refine ⟨fun m hm => ?_, ?_⟩
  · rw [keys_trackLeaf]
    rw [htracked] at hm
    rcases List.mem_append.mp hm with hm | hm
    · exact h.lt_length m hm
    · exact List.mem_singleton.mp hm ▸ hlt
  · have hkey : g.keys[n]? = some g.keys[n] := List.getElem?_eq_getElem hlt
    rw [htracked, keys_trackLeaf, List.filterMap_append, List.filterMap_cons_some hkey]
    exact h.tracks.trackLeaf hkey

/-- A graph still follows the operations when one more is done that fits. -/
theorem apply (h : Follows ops g) (hfits : op.Fits g) : Follows (ops ++ [op]) (g.apply op) := by
  cases op with
  | ensureNode key attrs => exact h.ensureNode key attrs
  | addEdge source target kind => exact h.addEdge hfits.1 target kind
  | enterBlock node | trackLeaf node => exact h.trackLeaf hfits rfl

/-- A leaf is a node that has been tracked, whether or not an edge left it then, and that no edge
leaves now. -/
theorem mem_leaves (h : Follows ops g) {n : Nat} :
    n ∈ g.leaves ↔ n ∈ trackedBy ops ∧ ∀ e ∈ g.edges, e.source ≠ n := by
  rw [h.tracks.leaves_eq, mem_pending]
  refine and_congr_left' ⟨?_, fun hn => ?_⟩
  · rintro ⟨key, hkey, hn⟩
    obtain ⟨m, hm, hmkey⟩ := List.mem_filterMap.mp hkey
    -- no key stands twice, so the node with the key is the one that was tracked
    obtain rfl : m = n :=
      (List.getElem?_inj (h.lt_length m hm) h.tracks.nodup).mp (hmkey.trans hn.symm)
    exact hm
  · have hkey : g.keys[n]? = some _ := List.getElem?_eq_getElem (h.lt_length n hn)
    exact ⟨_, List.mem_filterMap.mpr ⟨n, hn, hkey⟩, hkey⟩

/-- The leaves except one are the other tracked nodes that no edge leaves, in order. -/
theorem leavesExcept_eq (h : Follows ops g) (n : Nat) :
    g.leavesExcept n = (List.range g.slots.length).filter fun m =>
      m ≠ n ∧ m ∈ trackedBy ops ∧ ∀ e ∈ g.edges, e.source ≠ m := by
  have hsorted : (g.leavesExcept n).Pairwise (· < ·) := by
    rw [leavesExcept, h.tracks.leaves_eq]
    exact (pairwise_pending ..).filter _
  refine hsorted.eq_of_mem_iff (List.pairwise_lt_range.filter _) fun m => ?_
  rw [leavesExcept, List.mem_filter, h.mem_leaves, List.mem_filter, List.mem_range]
  simp only [decide_eq_true_eq]
  constructor
  · rintro ⟨⟨hm, he⟩, hne⟩
    exact ⟨by simpa using h.lt_length m hm, hne, hm, he⟩
  · rintro ⟨-, hne, hm, he⟩
    exact ⟨⟨hm, he⟩, hne⟩

end Follows

/-- A graph follows the operations that make it. -/
theorem follows_of_run? (h : run? name ops = some g) : Follows ops g := by
  induction ops using List.reverseRecOn generalizing g with
  | nil =>
    obtain rfl := Option.some.inj h
    exact .empty name
  | append_singleton ops op ih =>
    rw [run?_concat] at h
    obtain ⟨before, hbefore, hstep⟩ := Option.bind_eq_some_iff.mp h
    obtain ⟨hfits, hg⟩ := Option.ite_none_right_eq_some.mp hstep
    obtain rfl := Option.some.inj hg
    exact (ih hbefore).apply hfits

end Graph

/-! ### A table of places -/

/-- A graph with a table that says where its nodes are. -/
structure IndexedGraph where
  graph : Graph
  place : NodeKey → Option Nat

namespace IndexedGraph

/-- The empty graph with the empty table. -/
def empty (name : String) : IndexedGraph := ⟨.empty name, fun _ => none⟩

/-- The graph with a node, and the place of the node. A node that the table knows is not made
again. -/
def ensureNode (g : IndexedGraph) (key : NodeKey) (attrs : NodeAttrs) : IndexedGraph × Nat :=
  match g.place key with
  | some n => (g, n)
  | none =>
    let n := g.graph.slots.length
    ({ graph := { g.graph with slots := g.graph.slots ++ [{ key, attrs }] }
       place := Function.update g.place key (some n) }, n)

/-- Do one thing to a graph. The table changes when a node is made. -/
def apply (g : IndexedGraph) : Graph.Op → IndexedGraph
  | .ensureNode key attrs => (g.ensureNode key attrs).1
  | op => { g with graph := g.graph.apply op }

/-- Do one thing to a graph, unless it is about a node that is not there. -/
def step? (g : IndexedGraph) (op : Graph.Op) : Option IndexedGraph :=
  if op.Fits g.graph then some (g.apply op) else none

/-- Do several things, one after another, to the empty graph of a function. -/
def run? (name : String) (ops : List Graph.Op) : Option IndexedGraph :=
  ops.foldlM step? (.empty name)

end IndexedGraph

namespace Graph

/-- The graph with the table of the places that a search finds. -/
def indexed (g : Graph) : IndexedGraph := ⟨g, g.indexOf?⟩

section

variable (g : Graph)

/-- A new node is entered in the table, where a search will find it. -/
theorem indexOf?_ensureNode {key : NodeKey} (h : g.indexOf? key = none) (attrs : NodeAttrs) :
    (g.ensureNode key attrs).1.indexOf? =
      Function.update g.indexOf? key (some g.slots.length) := by
  have hnew : key ∉ g.keys := indexOf?_eq_none_iff.mp h
  funext key'
  rw [indexOf?_eq, keys_ensureNode, if_neg hnew, List.findIdx?_append, ← indexOf?_eq]
  by_cases hkey : key' = key
  · subst hkey
    simp [h]
  · simp [Function.update_of_ne hkey, Ne.symm hkey]

/-- Asking for a node by the index of keys gives what the list of keys gives. -/
theorem ensureNode_indexed (key : NodeKey) (attrs : NodeAttrs) :
    g.indexed.ensureNode key attrs =
      ((g.ensureNode key attrs).1.indexed, (g.ensureNode key attrs).2) := by
  cases h : g.indexOf? key with
  | some n => simp [IndexedGraph.ensureNode, indexed, h, ensureNode_of_mem h]
  | none =>
    have hindex := indexOf?_ensureNode g h attrs
    have hnew := ensureNode_of_not_mem (indexOf?_eq_none_iff.mp h) attrs
    rw [hnew] at hindex ⊢
    simp [IndexedGraph.ensureNode, indexed, h, hindex]

/-- Only a new node changes what a search finds. -/
theorem indexOf?_apply (h : op.node? = none) : (g.apply op).indexOf? = g.indexOf? := by
  have hkeys : (g.apply op).keys = g.keys := by
    rw [keys_eq_described, described_apply, h, keys_eq_described]
  funext key
  rw [indexOf?_eq, indexOf?_eq, hkeys]

/-- An operation by the index of keys gives what the list of keys gives. -/
theorem apply_indexed (op : Op) : g.indexed.apply op = (g.apply op).indexed := by
  cases op with
  | ensureNode key attrs => exact congrArg Prod.fst (ensureNode_indexed g key attrs)
  | addEdge source target kind =>
    exact congrArg (IndexedGraph.mk _) (indexOf?_apply g rfl).symm
  | enterBlock node | trackLeaf node =>
    exact congrArg (IndexedGraph.mk _) (indexOf?_apply g rfl).symm

/-- An operation fits by the index of keys if it fits by the list of keys, and gives the same. -/
theorem step?_indexed (op : Op) : g.indexed.step? op = (g.step? op).map indexed := by
  have hgraph : g.indexed.graph = g := rfl
  rw [IndexedGraph.step?, step?, apply_indexed, hgraph, apply_ite (Option.map indexed),
    Option.map_some, Option.map_none]

/-- Several operations by the index of keys give what the list of keys gives. -/
theorem foldlM_step?_indexed (ops : List Op) :
    ops.foldlM IndexedGraph.step? g.indexed = (ops.foldlM step? g).map indexed := by
  induction ops generalizing g with
  | nil => rfl
  | cons op ops ih =>
    rw [List.foldlM_cons, List.foldlM_cons, step?_indexed]
    cases g.step? op with
    | none => rfl
    | some g' => exact ih g'

end

/-- Operations on the empty graph by the index of keys give what the list of keys gives. -/
theorem run?_eq_map_indexed (name : String) (ops : List Op) :
    IndexedGraph.run? name ops = (run? name ops).map indexed :=
  foldlM_step?_indexed (.empty name) ops

/-! ### What is true of every graph that operations have made -/

/-- What a graph is after any operations. Each key has one slot, which the search finds and a table
would have, too; the slots come in the order in which their keys were first asked for and tell what
was told then, and asking again changes nothing. The counters count the edges, and the leaves are
the nodes that were tracked at some time and that no edge leaves now, in the order of the slots. -/
theorem history_of_run (h : run? name ops = some g) :
    IndexedGraph.run? name ops = some ⟨g, g.indexOf?⟩ ∧
      g.keys.Nodup ∧
      (∀ key n, g.indexOf? key = some n ↔ g.keyAt? n = some key) ∧
      g.described = firstBy Prod.fst (ops.filterMap Op.node?) ∧
      (∀ key attrs n, g.indexOf? key = some n → g.ensureNode key attrs = (g, n)) ∧
      g.edges = ops.filterMap Op.edge? ∧
      (∀ n, g.outDegree n = g.edges.countP fun e => e.source == n) ∧
      (∀ n, n ∈ g.leaves ↔ n ∈ trackedBy ops ∧ ∀ e ∈ g.edges, e.source ≠ n) ∧
      ∀ n, g.leavesExcept n = (List.range g.slots.length).filter fun m =>
        m ≠ n ∧ m ∈ trackedBy ops ∧ ∀ e ∈ g.edges, e.source ≠ m := by
  have hmade : Made name ops g := made_of_run? h
  have hfollows : Follows ops g := follows_of_run? h
  have hindexed : IndexedGraph.run? name ops = some g.indexed := by
    rw [run?_eq_map_indexed, h, Option.map_some]
  refine ⟨hindexed, hfollows.tracks.nodup, fun key n => ?_, hmade.described_eq,
    fun key attrs n hn => ensureNode_of_mem hn attrs, hmade.edges_eq, hfollows.tracks.outDegree_eq,
    fun n => hfollows.mem_leaves, hfollows.leavesExcept_eq⟩
  rw [indexOf?_eq_some_iff hfollows.tracks.nodup, keyAt?_eq]

/-- Two instructions of a block, the first of which takes its own value. The block is made twice and
is tracked again when edges leave it already. -/
def loopedOps : List Op :=
  [.ensureNode (.block "%b") (.block 2), .enterBlock 0,
    .ensureNode (.instruction 1) (.instruction "a" "add" false), .addEdge 0 1 .sequential,
    .trackLeaf 1, .addEdge 1 1 .data,
    .ensureNode (.instruction 2) (.instruction "b" "ret" false), .trackLeaf 2,
    .ensureNode (.block "%b") (.block 9), .trackLeaf 0, .addEdge 0 2 .sequential,
    .addEdge 0 2 .sequential]

/-- A graph with a node that is asked for again, two edges between the same nodes and one that leads
back to its source. -/
theorem history_of_loopedOps :
    ∃ g, run? "f" loopedOps = some g ∧
      g.described = [(.block "%b", .block 2), (.instruction 1, .instruction "a" "add" false),
        (.instruction 2, .instruction "b" "ret" false)] ∧
      g.outDegree 0 = 3 ∧ g.leavesExcept 0 = [2] ∧ g.leavesExcept 2 = [] := by
  have hrun : run? "f" loopedOps = some _ := rfl
  obtain ⟨-, -, -, hdescribed, -, -, hout, -, hleaves⟩ := history_of_run hrun
  refine ⟨_, hrun, hdescribed, ?_, ?_, ?_⟩
  · exact hout 0
  · rw [hleaves]
    decide
  · rw [hleaves]
    decide

end Graph

end InstrGraph

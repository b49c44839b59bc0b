import InstrGraph.Graph.Node

/-!
# Graphs under construction

A graph is a list of slots, one for each node, and a list of edges between their indices. Nodes
and edges stay in the order in which they were added, and parallel edges are kept.

While the instructions of a function are walked, the graph keeps the *leaves*: the nodes that have
been walked and have no outgoing edge yet. A slot counts its outgoing edges, so that tracking a
leaf and adding an edge need not look at the other edges.
-/

namespace InstrGraph

/-- The place of a node in a graph. -/
structure Slot where
  key : NodeKey
  attrs : NodeAttrs
  /-- How many edges leave the node. -/
  outDegree : Nat := 0
  deriving Repr

/-- An edge between two slots. -/
structure Edge where
  source : Nat
  target : Nat
  kind : EdgeKind
  deriving DecidableEq, Repr

/-- A graph of a function. -/
structure Graph where
  functionName : String
  slots : List Slot := []
  edges : List Edge := []
  /-- The indices of the leaves, in increasing order. -/
  leaves : List Nat := []
  deriving Repr

/-- Put a number into an increasing list, unless it is there. -/
def insertAscending (n : Nat) : List Nat → List Nat
  | [] => [n]
  | m :: rest => if n < m then n :: m :: rest else if n = m then m :: rest
    else m :: insertAscending n rest

/-- Inserting a number adds it to a list. -/
theorem mem_insertAscending {n m : Nat} {xs : List Nat} :
    m ∈ insertAscending n xs ↔ m = n ∨ m ∈ xs := by
  induction xs with
  | nil => simp [insertAscending]
  | cons x rest ih =>
    simp only [insertAscending]
    split
    · simp
    · split
      · rename_i h
        subst h
        simp
      · simp only [List.mem_cons, ih]
        constructor
        · rintro (h | h | h)
          · exact Or.inr (Or.inl h)
          · exact Or.inl h
          · exact Or.inr (Or.inr h)
        · rintro (h | h | h)
          · exact Or.inr (Or.inl h)
          · exact Or.inl h
          · exact Or.inr (Or.inr h)

namespace Graph

/-- The graph of a function before anything is known about it. -/
def empty (functionName : String) : Graph := { functionName }

/-- The index of a node. -/
def indexOf? (g : Graph) (key : NodeKey) : Option Nat := g.slots.findIdx? fun s => s.key == key

/-- The node is there. -/
def contains (g : Graph) (key : NodeKey) : Bool := (g.indexOf? key).isSome

/-- The graph with a node, and the index of the node. A node that is there keeps its attributes. -/
def ensureNode (g : Graph) (key : NodeKey) (attrs : NodeAttrs) : Graph × Nat :=
  match g.indexOf? key with
  | some i => (g, i)
  | none => ({ g with slots := g.slots ++ [{ key, attrs }] }, g.slots.length)

/-- How many edges leave a node. -/
def outDegree (g : Graph) (i : Nat) : Nat :=
  match g.slots[i]? with
  | some s => s.outDegree
  | none => 0

/-- How many edges enter a node. -/
def inDegree (g : Graph) (i : Nat) : Nat := (g.edges.filter fun e => e.target == i).length

/-- Add an edge. Its source is no leaf any more. -/
def addEdge (g : Graph) (source target : Nat) (kind : EdgeKind) : Graph :=
  { g with
    slots := g.slots.modify source fun s => { s with outDegree := s.outDegree + 1 }
    edges := g.edges ++ [⟨source, target, kind⟩]
    leaves := g.leaves.filter (· ≠ source) }

/-- Mark a node as walked: it is a leaf unless an edge leaves it. -/
def trackLeaf (g : Graph) (i : Nat) : Graph :=
  if g.outDegree i = 0 then { g with leaves := insertAscending i g.leaves } else g

/-- Begin a block. The leaves of earlier blocks stay leaves. -/
def enterBlock (g : Graph) (i : Nat) : Graph := g.trackLeaf i

/-- The leaves other than one node, in the order of their indices. -/
def leavesExcept (g : Graph) (i : Nat) : List Nat := g.leaves.filter (· ≠ i)

/-- The node at an index. -/
def keyAt? (g : Graph) (i : Nat) : Option NodeKey := g.slots[i]?.map Slot.key

/-- The name of the node at an index. -/
def idAt (g : Graph) (i : Nat) : String :=
  match g.keyAt? i with
  | some k => k.id
  | none => ""

/-- The edges that leave a node, the one added last in front. -/
def outgoing (g : Graph) (key : NodeKey) : List Edge :=
  match g.indexOf? key with
  | some i => (g.edges.filter fun e => e.source == i).reverse
  | none => []

/-- There is an edge of a kind from one node to another. -/
def hasEdge (g : Graph) (source target : NodeKey) (kind : EdgeKind) : Bool :=
  match g.indexOf? source, g.indexOf? target with
  | some s, some t => g.edges.contains ⟨s, t, kind⟩
  | _, _ => false

end Graph

end InstrGraph

import InstrGraph.Graph.Arena
import Mathlib.Data.List.Sort

/-!
# What the arena keeps true

A graph under construction counts the edges that leave a slot and keeps its leaves in a list of its
own. Both could be worked out from the edges: `Tracks g tracked` says that they agree with what one
would find there, when the nodes in `tracked` have been walked.

* `Tracks.empty`, `Tracks.ensureNode`, `Tracks.addEdge`, `Tracks.trackLeaf`: every operation keeps
  this true.
* `pending`: the leaves worked out from a list of edges, in the order of the nodes.
-/

namespace InstrGraph

/-- Inserting a number keeps a list in strict order. -/
theorem pairwise_insertAscending {n : Nat} {xs : List Nat} (h : xs.Pairwise (· < ·)) :
    (insertAscending n xs).Pairwise (· < ·) := by
  induction xs with
  | nil => simp [insertAscending]
  | cons x rest ih =>
    obtain ⟨hx, hrest⟩ := List.pairwise_cons.mp h
    unfold insertAscending
    split
    · rename_i hn
      refine List.pairwise_cons.mpr ⟨fun m hm => ?_, h⟩
      rcases List.mem_cons.mp hm with rfl | hm
      · exact hn
      · exact lt_trans hn (hx m hm)
    · split
      · exact h
      · refine List.pairwise_cons.mpr ⟨fun m hm => ?_, ih hrest⟩
        rcases mem_insertAscending.mp hm with rfl | hm
        · omega
        · exact hx m hm

/-- Inserting into a selection of the numbers below `n` selects one more. -/
theorem insertAscending_filter_range {n i : Nat} (hi : i < n) (p : Nat → Bool) :
    insertAscending i ((List.range n).filter p) =
      (List.range n).filter fun m => m == i || p m := by
  have hsorted (q : Nat → Bool) : ((List.range n).filter q).Pairwise (· < ·) :=
    List.pairwise_lt_range.filter _
  refine (pairwise_insertAscending (hsorted p)).eq_of_mem_iff (hsorted _) fun m => ?_
  rw [mem_insertAscending, List.mem_filter, List.mem_filter, List.mem_range, Bool.or_eq_true,
    beq_iff_eq]
  constructor
  · rintro (rfl | ⟨hm, hp⟩)
    · exact ⟨hi, Or.inl rfl⟩
    · exact ⟨hm, Or.inr hp⟩
  · rintro ⟨hm, rfl | hp⟩
    · exact Or.inl rfl
    · exact Or.inr ⟨hm, hp⟩

namespace Graph

/-! ### Nodes by their keys -/

/-- The nodes, in the order in which they were added. -/
def keys (g : Graph) : List NodeKey := g.slots.map Slot.key

/-- Every slot has its key. -/
@[simp] theorem length_keys (g : Graph) : g.keys.length = g.slots.length := by simp [keys]

/-- The key at an index, as an entry of the list of keys. -/
theorem keyAt?_eq (g : Graph) (i : Nat) : g.keyAt? i = g.keys[i]? := by simp [keyAt?, keys]

/-- The index of a key is that of its first occurrence in the list of keys. -/
theorem indexOf?_eq (g : Graph) (key : NodeKey) :
    g.indexOf? key = g.keys.findIdx? (· == key) := by
  rw [indexOf?, keys, List.findIdx?_map]
  rfl

/-- If no key occurs twice, the index of a key is the only place where it occurs. -/
theorem indexOf?_eq_some_iff {g : Graph} (h : g.keys.Nodup) {key : NodeKey} {i : Nat} :
    g.indexOf? key = some i ↔ g.keys[i]? = some key := by
  rw [indexOf?_eq, List.findIdx?_eq_some_iff_getElem]
  constructor
  · rintro ⟨hi, hk, -⟩
    rw [List.getElem?_eq_getElem hi, beq_iff_eq.mp hk]
  · intro hk
    obtain ⟨hi, hk⟩ := List.getElem?_eq_some_iff.mp hk
    refine ⟨hi, beq_iff_eq.mpr hk, fun j hj hjk => ?_⟩
    have hij : g.keys[j] = g.keys[i] := (beq_iff_eq.mp hjk).trans hk.symm
    exact absurd ((List.Nodup.getElem_inj_iff h).mp hij) (by omega)

/-- A graph contains the keys in its list. -/
theorem contains_iff {g : Graph} {key : NodeKey} : g.contains key = true ↔ key ∈ g.keys := by
  simp [contains, indexOf?_eq]

/-- A key without an index is not in the list. -/
theorem indexOf?_eq_none_iff {g : Graph} {key : NodeKey} :
    g.indexOf? key = none ↔ key ∉ g.keys := by
  rw [← contains_iff, contains, Bool.not_eq_true, Option.isSome_eq_false_iff,
    Option.isNone_iff_eq_none]

/-- Nodes keep their indices when nodes are added. -/
theorem getElem?_keys_of_isPrefix {g g' : Graph} (hk : g.keys <+: g'.keys) {key : NodeKey} {i : Nat}
    (h : g.keys[i]? = some key) : g'.keys[i]? = some key := by
  obtain ⟨hlt, h⟩ := List.getElem?_eq_some_iff.mp h
  exact h ▸ List.prefix_iff_getElem?.mp hk _ hlt

/-- Nodes that are added later do not move a node. -/
theorem indexOf?_of_isPrefix {g g' : Graph} (hk : g.keys <+: g'.keys) {key : NodeKey} {i : Nat}
    (h : g.indexOf? key = some i) : g'.indexOf? key = some i := by
  obtain ⟨more, hmore⟩ := hk
  rw [indexOf?_eq] at h ⊢
  rw [← hmore, List.findIdx?_append, h]
  rfl

/-- An edge brings no nodes. -/
@[simp] theorem keys_addEdge (g : Graph) (s t : Nat) (k : EdgeKind) :
    (g.addEdge s t k).keys = g.keys := by
  refine List.ext_getElem? fun i => ?_
  simp only [keys, addEdge, List.getElem?_map, List.getElem?_modify]
  cases g.slots[i]? with
  | none => rfl
  | some slot => by_cases hi : s = i <;> simp [hi]

/-- An edge is added behind the others. -/
@[simp] theorem edges_addEdge (g : Graph) (s t : Nat) (k : EdgeKind) :
    (g.addEdge s t k).edges = g.edges ++ [⟨s, t, k⟩] := rfl

/-- Tracking a leaf does not change the nodes. -/
@[simp] theorem slots_trackLeaf (g : Graph) (i : Nat) : (g.trackLeaf i).slots = g.slots := by
  unfold Graph.trackLeaf
  split <;> rfl

/-- Tracking a leaf brings no nodes. -/
@[simp] theorem keys_trackLeaf (g : Graph) (i : Nat) : (g.trackLeaf i).keys = g.keys := by
  unfold trackLeaf
  split <;> rfl

/-- Tracking a leaf brings no edges. -/
@[simp] theorem edges_trackLeaf (g : Graph) (i : Nat) : (g.trackLeaf i).edges = g.edges := by
  unfold trackLeaf
  split <;> rfl

/-- A node that is there already is used again, with the attributes that it has. -/
theorem ensureNode_of_mem {g : Graph} {key : NodeKey} {i : Nat} (h : g.indexOf? key = some i)
    (attrs : NodeAttrs) : g.ensureNode key attrs = (g, i) := by simp [ensureNode, h]

/-- A new node is put behind the others. -/
theorem ensureNode_of_not_mem {g : Graph} {key : NodeKey} (h : key ∉ g.keys) (attrs : NodeAttrs) :
    g.ensureNode key attrs =
      ({ g with slots := g.slots ++ [{ key, attrs }] }, g.slots.length) := by
  simp [ensureNode, indexOf?_eq_none_iff.mpr h]

/-- A node brings no edges. -/
@[simp] theorem edges_ensureNode (g : Graph) (key : NodeKey) (attrs : NodeAttrs) :
    (g.ensureNode key attrs).1.edges = g.edges := by
  unfold ensureNode
  split <;> rfl

/-- A node that is there already brings no new key, and a new one its own. -/
theorem keys_ensureNode (g : Graph) (key : NodeKey) (attrs : NodeAttrs) :
    (g.ensureNode key attrs).1.keys = if key ∈ g.keys then g.keys else g.keys ++ [key] := by
  by_cases h : key ∈ g.keys
  · obtain ⟨i, hi⟩ := Option.isSome_iff_exists.mp (contains_iff.mpr h)
    rw [ensureNode_of_mem hi, if_pos h]
  · rw [ensureNode_of_not_mem h, if_neg h]
    simp [keys]

/-! ### Leaves worked out from the edges -/

/-- The node at an index is among `tracked`, and none of the edges leaves it. -/
def isPending (g : Graph) (tracked : List NodeKey) (edges : List Edge) (m : Nat) : Bool :=
  (g.keyAt? m).any tracked.contains && edges.all fun e => e.source != m

/-- The nodes among `tracked` that none of the edges leaves, in the order of the nodes. -/
def pending (g : Graph) (tracked : List NodeKey) (edges : List Edge) : List Nat :=
  (List.range g.slots.length).filter (g.isPending tracked edges)

/-- A node is pending if it is tracked and no edge leaves it. -/
theorem isPending_iff {g : Graph} {tracked : List NodeKey} {edges : List Edge} {m : Nat} :
    g.isPending tracked edges m = true ↔
      (∃ key ∈ tracked, g.keys[m]? = some key) ∧ ∀ e ∈ edges, e.source ≠ m := by
  simp [isPending, keyAt?_eq, Option.any_eq_true, and_comm]

/-- The pending nodes are those that are tracked and that no edge leaves. -/
theorem mem_pending {g : Graph} {tracked : List NodeKey} {edges : List Edge} {m : Nat} :
    m ∈ g.pending tracked edges ↔
      (∃ key ∈ tracked, g.keys[m]? = some key) ∧ ∀ e ∈ edges, e.source ≠ m := by
  rw [pending, List.mem_filter, isPending_iff, List.mem_range]
  refine and_iff_right_of_imp ?_
  rintro ⟨⟨key, -, hm⟩, -⟩
  simpa using (List.getElem?_eq_some_iff.mp hm).1

/-- The pending nodes are listed in the order of the nodes, each once. -/
theorem pairwise_pending (g : Graph) (tracked : List NodeKey) (edges : List Edge) :
    (g.pending tracked edges).Pairwise (· < ·) := List.pairwise_lt_range.filter _

/-- Two selections with the same members are the same. -/
theorem pending_congr {g g' : Graph} {tracked tracked' : List NodeKey} {edges edges' : List Edge}
    (h : ∀ m, ((∃ key ∈ tracked, g.keys[m]? = some key) ∧ ∀ e ∈ edges, e.source ≠ m) ↔
      (∃ key ∈ tracked', g'.keys[m]? = some key) ∧ ∀ e ∈ edges', e.source ≠ m) :
    g.pending tracked edges = g'.pending tracked' edges' :=
  (pairwise_pending ..).eq_of_mem_iff (pairwise_pending ..) fun m => by
    rw [mem_pending, mem_pending, h]

/-- Adding nodes does not change at which indices the tracked ones are. -/
theorem exists_getElem?_of_isPrefix {g g' : Graph} (hk : g.keys <+: g'.keys) (hd : g'.keys.Nodup)
    {tracked : List NodeKey} (ht : ∀ key ∈ tracked, key ∈ g.keys) (m : Nat) :
    (∃ key ∈ tracked, g.keys[m]? = some key) ↔ ∃ key ∈ tracked, g'.keys[m]? = some key := by
  constructor
  · rintro ⟨key, hkey, hm⟩
    exact ⟨key, hkey, getElem?_keys_of_isPrefix hk hm⟩
  · rintro ⟨key, hkey, hm⟩
    obtain ⟨j, hj, hjk⟩ := List.getElem_of_mem (ht key hkey)
    have hj' := List.prefix_iff_getElem?.mp hk j hj
    rw [hjk] at hj'
    -- no key stands twice, so the node is where it was
    have hlt : j < g'.keys.length := (List.getElem?_eq_some_iff.mp hj').1
    obtain rfl : j = m := (List.getElem?_inj hlt hd).mp (hj'.trans hm.symm)
    exact ⟨key, hkey, by rw [List.getElem?_eq_getElem hj, hjk]⟩

/-- Nodes that are added later are not pending. -/
theorem pending_of_isPrefix {g g' : Graph} (hk : g.keys <+: g'.keys) (hd : g'.keys.Nodup)
    {tracked : List NodeKey} (ht : ∀ key ∈ tracked, key ∈ g.keys) (edges : List Edge) :
    g.pending tracked edges = g'.pending tracked edges :=
  pending_congr fun m => and_congr_left' (exists_getElem?_of_isPrefix hk hd ht m)

/-! ### The invariant -/

/-- The counters and the leaves agree with the edges, where the nodes in `tracked` are walked. -/
structure Tracks (g : Graph) (tracked : List NodeKey) : Prop where
  nodup : g.keys.Nodup
  source_lt : ∀ e ∈ g.edges, e.source < g.slots.length
  outDegree_eq : ∀ m, g.outDegree m = g.edges.countP fun e => e.source == m
  tracked_mem : ∀ key ∈ tracked, key ∈ g.keys
  leaves_eq : g.leaves = g.pending tracked g.edges

variable {g g' : Graph} {tracked : List NodeKey}

/-- The empty graph keeps track of no nodes. -/
theorem Tracks.empty (name : String) : (Graph.empty name).Tracks [] where
  nodup := List.nodup_nil
  source_lt := by simp [Graph.empty]
  outDegree_eq := by simp [Graph.empty, outDegree]
  tracked_mem := by simp
  leaves_eq := rfl

/-- An edge adds one to the counter of its source. -/
theorem outDegree_addEdge (g : Graph) {s : Nat} (hs : s < g.slots.length) (t : Nat)
    (k : EdgeKind) (m : Nat) :
    (g.addEdge s t k).outDegree m = g.outDegree m + if s = m then 1 else 0 := by
  simp only [outDegree, addEdge, List.getElem?_modify]
  by_cases hm : s = m
  · subst hm
    simp [List.getElem?_eq_getElem hs]
  · cases g.slots[m]? <;> simp [hm]

/-- A graph keeps track of its nodes when an edge is added to it. -/
theorem Tracks.addEdge (h : g.Tracks tracked) {s : Nat} (hs : s < g.slots.length) (t : Nat)
    (k : EdgeKind) : (g.addEdge s t k).Tracks tracked := by
  have hlen : (g.addEdge s t k).slots.length = g.slots.length := by simp [Graph.addEdge]
  refine ⟨by simpa using h.nodup, ?_, ?_, by simpa using h.tracked_mem, ?_⟩
  · intro e he
    rw [hlen]
    rcases List.mem_append.mp he with he | he
    · exact h.source_lt e he
    · obtain rfl := List.mem_singleton.mp he
      exact hs
  · intro m
    rw [outDegree_addEdge g hs, h.outDegree_eq, edges_addEdge, List.countP_append]
    by_cases hm : s = m <;> simp [hm]
  · show g.leaves.filter (· ≠ s) = _
    rw [h.leaves_eq, pending, List.filter_filter, pending, hlen]
    refine List.filter_congr fun m _ => ?_
    have hkey : (g.addEdge s t k).keyAt? m = g.keyAt? m := by simp [keyAt?_eq]
    rw [isPending, isPending, hkey, edges_addEdge, List.all_append]
    by_cases hm : s = m
    · simp [hm]
    · have hms : m ≠ s := fun h => hm h.symm
      simp [hms, bne_iff_ne.mpr hm]

/-- A graph keeps track of its nodes when a node is added to it. -/
theorem Tracks.ensureNode (h : g.Tracks tracked) (key : NodeKey) (attrs : NodeAttrs) :
    (g.ensureNode key attrs).1.Tracks tracked := by
  by_cases hkey : key ∈ g.keys
  · obtain ⟨i, hi⟩ := Option.isSome_iff_exists.mp (contains_iff.mpr hkey)
    rwa [ensureNode_of_mem hi]
  · have hkeys := keys_ensureNode g key attrs
    rw [if_neg hkey] at hkeys
    have hnodup : (g.ensureNode key attrs).1.keys.Nodup := by
      rw [hkeys]
      exact List.nodup_append.mpr ⟨h.nodup, by simp, fun a ha b hb => by
        rintro rfl
        exact hkey (List.mem_singleton.mp hb ▸ ha)⟩
    have hprefix : g.keys <+: (g.ensureNode key attrs).1.keys := ⟨[key], hkeys.symm⟩
    refine ⟨hnodup, ?_, ?_, fun k hk => hprefix.mem (h.tracked_mem k hk), ?_⟩
    · intro e he
      rw [ensureNode_of_not_mem hkey]
      rw [edges_ensureNode] at he
      have := h.source_lt e he
      simp only [List.length_append, List.length_singleton]
      omega
    · intro m
      rw [edges_ensureNode, ← h.outDegree_eq, ensureNode_of_not_mem hkey]
      simp only [outDegree]
      rcases lt_trichotomy m g.slots.length with hm | rfl | hm
      · rw [List.getElem?_append_left hm]
      · simp
      · rw [List.getElem?_eq_none (by simp; omega), List.getElem?_eq_none (by omega)]
    · have hleaves : (g.ensureNode key attrs).1.leaves = g.leaves := by
        rw [ensureNode_of_not_mem hkey]
      rw [hleaves, h.leaves_eq, edges_ensureNode]
      exact pending_of_isPrefix hprefix hnodup h.tracked_mem _

section

variable {i : Nat} {key : NodeKey} (h : g.Tracks tracked) (hi : g.keys[i]? = some key)

include h hi

/-- With one more key, one more index is tracked. -/
theorem Tracks.exists_tracked_iff (m : Nat) : (∃ k ∈ tracked ++ [key], g.keys[m]? = some k) ↔
    (∃ k ∈ tracked, g.keys[m]? = some k) ∨ m = i := by
  simp only [List.mem_append, List.mem_singleton, or_and_right, exists_or, exists_eq_left]
  refine or_congr_right ⟨fun hm => ?_, fun hm => hm ▸ hi⟩
  have hlt : m < g.keys.length := (List.getElem?_eq_some_iff.mp hm).1
  exact (List.getElem?_inj hlt h.nodup).mp (hm.trans hi.symm)

/-- With a node tracked as a leaf, the leaves are again the tracked nodes that no edge leaves. -/
theorem Tracks.leaves_trackLeaf :
    (g.trackLeaf i).leaves = g.pending (tracked ++ [key]) g.edges := by
  have hlt : i < g.slots.length := by simpa using (List.getElem?_eq_some_iff.mp hi).1
  unfold Graph.trackLeaf
  split
  · rename_i hout
    rw [h.outDegree_eq, List.countP_eq_zero] at hout
    have hout : ∀ e ∈ g.edges, e.source ≠ i := fun e he hs => hout e he (by simpa using hs)
    show insertAscending i g.leaves = _
    rw [h.leaves_eq, pending, insertAscending_filter_range hlt, pending]
    refine List.filter_congr fun m _ => Bool.eq_iff_iff.mpr ?_
    rw [Bool.or_eq_true, beq_iff_eq, isPending_iff, isPending_iff, h.exists_tracked_iff hi]
    constructor
    · rintro (rfl | ⟨hk, he⟩)
      · exact ⟨Or.inr rfl, hout⟩
      · exact ⟨Or.inl hk, he⟩
    · rintro ⟨hk | rfl, he⟩
      · exact Or.inr ⟨hk, he⟩
      · exact Or.inl rfl
  · rename_i hout
    rw [h.outDegree_eq, List.countP_eq_zero] at hout
    rw [h.leaves_eq]
    refine pending_congr fun m => ?_
    rw [h.exists_tracked_iff hi, or_and_right]
    refine (or_iff_left ?_).symm
    rintro ⟨rfl, he⟩
    exact hout fun e hmem => by simpa using he e hmem

/-- A node that is marked as walked is a leaf exactly if no edge leaves it. -/
theorem Tracks.trackLeaf : (g.trackLeaf i).Tracks (tracked ++ [key]) where
  nodup := by simpa using h.nodup
  source_lt := by simpa using h.source_lt
  outDegree_eq m := by
    rw [outDegree, slots_trackLeaf, edges_trackLeaf]
    exact h.outDegree_eq m
  tracked_mem k hk := by
    rw [keys_trackLeaf]
    rcases List.mem_append.mp hk with hk | hk
    · exact h.tracked_mem k hk
    · rw [List.mem_singleton.mp hk]
      exact List.mem_of_getElem? hi
  leaves_eq := by
    rw [h.leaves_trackLeaf hi, edges_trackLeaf]
    exact pending_congr fun m => by rw [keys_trackLeaf]

end

/-- A node is found at the index that it is given. -/
theorem Tracks.keys_ensureNode (h : g.Tracks tracked) (key : NodeKey) (attrs : NodeAttrs) :
    (g.ensureNode key attrs).1.keys[(g.ensureNode key attrs).2]? = some key := by
  by_cases hkey : key ∈ g.keys
  · obtain ⟨i, hi⟩ := Option.isSome_iff_exists.mp (contains_iff.mpr hkey)
    rw [ensureNode_of_mem hi]
    exact (indexOf?_eq_some_iff h.nodup).mp hi
  · rw [ensureNode_of_not_mem hkey]
    simp [keys]

end Graph

end InstrGraph

import InstrGraph.Proofs.Graph.Run

/-!
# Which sequential edges a graph has

While a function is walked, leaves are kept as they come and go. The account of the sequential
edges here looks at the finished graph only:

* `sequential_edges_of_build`: into each instruction lead exactly the sequential edges from its
  block, from what was pending when it was visited, or none, as its opcode and operands say.
* `VisitOf.standing_eq`: what is pending then is worked out from `standing`, the edges that were
  there when the values of the instruction had flowed.
-/

namespace InstrGraph

/-! ### The sequential edges of a finished graph -/

namespace Graph

/-- The sequential edges into a node. -/
def sequentialInto (g : Graph) (n : Nat) : List Edge :=
  g.edges.filter fun e => e.isSequential && e.target == n

/-- The edges that stand when the values of the instruction at a node have flowed into it: those
added on earlier visits, and those that carry its values. -/
def standing (g : Graph) (n : Nat) : List Edge :=
  g.edges.filter fun e => decide (e.adder < n) || (e.adder == n && e.carriesValue)

variable {g : Graph} {n : Nat} {old new later : List Edge}

/-- The edges that stand when the sequential ones are added are the older ones and those of
values. -/
theorem standing_of_edges (hg : g.edges = old ++ new ++ later) (hold : ∀ e ∈ old, e.adder < n)
    (hnew : ∀ e ∈ new, e.adder = n) (hlater : ∀ e ∈ later, n < e.adder) :
    g.standing n = old ++ new.filter Edge.carriesValue := by
  rw [standing, hg, List.filter_append, List.filter_append]
  have h1 : old.filter (fun e => decide (e.adder < n) || (e.adder == n && e.carriesValue)) = old :=
    List.filter_eq_self.mpr fun e he => by simp [hold e he]
  have h2 : new.filter (fun e => decide (e.adder < n) || (e.adder == n && e.carriesValue)) =
      new.filter Edge.carriesValue :=
    List.filter_congr fun e he => by simp [hnew e he]
  have h3 : later.filter (fun e => decide (e.adder < n) || (e.adder == n && e.carriesValue)) = [] :=
    List.filter_eq_nil_iff.mpr fun e he => by
      have := hlater e he
      simp [show ¬ e.adder < n by omega, show e.adder ≠ n by omega]
  rw [h1, h2, h3, List.append_nil]

end Graph

namespace Builder

variable {b : Builder} {g : Graph} {ds : List Diagnostic} {pre post : List Event} {block : Block}
  {i : Instruction}

namespace VisitOf

variable {s s' : BuildState} {new : List Edge}

/-- The edges that count as standing are those before the visit and those that carry the values
of the instruction. -/
theorem standing_eq (h : VisitOf b g pre block i s s' new) :
    g.standing s.graph.slots.length = s.graph.edges ++ new.filter Edge.carriesValue := by
  obtain ⟨later, hedges, hold, hlater⟩ := h.edges
  exact Graph.standing_of_edges hedges hold h.added.adder hlater

/-- The sequential edges into an instruction come from its block or from what is pending. -/
theorem sequentialInto_eq (h : VisitOf b g pre block i s s' new) :
    g.sequentialInto s.graph.slots.length = sequentialEdges
      (b.sequentialSources block i (s.graph.entryOf block)
        (g.pending (waiting pre) (g.standing s.graph.slots.length)))
      s.graph.slots.length := by
  have hinto : g.sequentialInto s.graph.slots.length = new.filter Edge.isSequential := by
    rw [← h.filter_adder, Graph.sequentialInto]
    refine List.filter_congr fun e _ => ?_
    cases hs : e.isSequential with
    | false => rfl
    | true => rw [Edge.adder_eq_target (Edge.sort_of_isSequential hs).2]
  rw [hinto, h.added.sequential, h.standing_eq,
    Graph.pending_of_isPrefix h.keys_isPrefix h.nodup h.before.tracked_mem]

/-- After a terminator that gathers, an edge leaves every node that was waiting. -/
theorem exists_edge_of_gathers (h : VisitOf b g pre block i s s' new) (hg : i.gathers = true)
    {key : NodeKey} (hkey : key ∈ waiting pre) :
    ∃ m, g.indexOf? key = some m ∧
      ∃ e ∈ g.edges, e.source = m ∧ e.adder ≤ s.graph.slots.length := by
  have hmem : key ∈ g.keys := h.keys_isPrefix.mem (h.before.tracked_mem key hkey)
  obtain ⟨m, hm⟩ := Option.isSome_iff_exists.mp (Graph.contains_iff.mpr hmem)
  refine ⟨m, hm, ?_⟩
  by_cases hstanding : ∃ e ∈ g.standing s.graph.slots.length, e.source = m
  · obtain ⟨e, he, hs⟩ := hstanding
    obtain ⟨he, hadder⟩ := List.mem_filter.mp he
    refine ⟨e, he, hs, ?_⟩
    simp only [Bool.or_eq_true, decide_eq_true_eq, Bool.and_eq_true, beq_iff_eq] at hadder
    omega
  · -- no edge leaves the node yet, so it is pending and gets one now
    have hpending : m ∈ g.pending (waiting pre) (g.standing s.graph.slots.length) := by
      rw [Graph.mem_pending]
      exact ⟨⟨key, hkey, (Graph.indexOf?_eq_some_iff h.nodup).mp hm⟩,
        fun e he hs => hstanding ⟨e, he, hs⟩⟩
    have hinto : (⟨m, s.graph.slots.length, .sequential⟩ : Edge) ∈
        g.sequentialInto s.graph.slots.length := by
      rw [h.sequentialInto_eq, sequentialSources, if_pos hg]
      exact List.mem_map.mpr ⟨m, hpending, rfl⟩
    exact ⟨_, (List.mem_filter.mp hinto).1, rfl, le_refl _⟩

end VisitOf

/-- The sequential edges of a graph that was built, worked out from its other edges. On a visit of
instruction `i`, with node `n`, in a block with node `entry`:

* the sequential edges into `n` come from `sequentialSources`: from `entry` or from nowhere, if
  `i` is no terminator; from nowhere, if `i` is a `switch`; and for any other terminator from the
  nodes entered or walked before that no standing edge leaves, in the order of the nodes;
* after a terminator of this last kind, some edge leaves every node that waited for it.

No sequential edge leads anywhere else. -/
theorem sequential_edges_of_build (h : b.build = .ok (g, ds)) :
    (∀ pre block i post, schedule b.function.blocks = pre ++ .visit block i :: post →
      ∃ n entry, g.indexOf? i.key = some n ∧ g.indexOf? block.key = some entry ∧
        g.sequentialInto n = sequentialEdges
          (b.sequentialSources block i entry (g.pending (waiting pre) (g.standing n))) n ∧
        (i.gathers = true → ∀ key ∈ waiting pre, ∃ m, g.indexOf? key = some m ∧
          ∃ e ∈ g.edges, e.source = m ∧ e.adder ≤ n)) ∧
      ∀ e ∈ g.edges, e.isSequential = true →
        ∃ i ∈ b.function.instructions, g.indexOf? i.key = some e.target := by
  constructor
  · intro pre block i post hsched
    obtain ⟨s, s', new, hvisit⟩ := exists_visit_of_build h hsched
    exact ⟨_, _, hvisit.indexOf?_node, hvisit.indexOf?_entry, hvisit.sequentialInto_eq,
      fun hg key hkey => hvisit.exists_edge_of_gathers hg hkey⟩
  · intro e he hs
    have hk : e.kind ≠ .entry := fun hk => by simp [Edge.isSequential, hk] at hs
    obtain ⟨pre, block, i, post, s, s', new, hsched, hvisit, hnew⟩ :=
      exists_visit_of_mem_edges h he hk
    refine ⟨i, by simp [instructions_of_split hsched], ?_⟩
    rw [← Edge.adder_eq_target (Edge.sort_of_isSequential hs).2, hvisit.added.adder e hnew]
    exact hvisit.indexOf?_node

/-- A block that stores and returns. -/
def storeExample : Builder :=
  .of
    { name := "f", params := ["ptr %p"]
      blocks := [⟨"%0", [{ id := 1, opcode := .other "store", text := "store i32 1, ptr %p",
                           operands := ["i32 1", "ptr %p"] },
                         { id := 2, opcode := .ret, text := "ret void" }]⟩] }
    (.empty .label false) {} {} "<const>"

/-- The store hangs on its block and is what the return waits for. -/
theorem sequential_edges_of_storeExample :
    ∃ g ds, storeExample.build = .ok (g, ds) ∧
      g.sequentialInto 2 = [⟨1, 2, .sequential⟩] ∧ g.sequentialInto 4 = [⟨2, 4, .sequential⟩] ∧
      ∀ e ∈ g.edges, e.isSequential = true →
        ∃ i ∈ storeExample.function.instructions, g.indexOf? i.key = some e.target := by
  have hinto : (storeExample.build.toOption.map fun r =>
      (r.1.sequentialInto 2, r.1.sequentialInto 4)) =
        some ([⟨1, 2, .sequential⟩], [⟨2, 4, .sequential⟩]) := by decide +kernel
  cases h : storeExample.build with
  | error e => simp [h, Except.toOption] at hinto
  | ok r =>
    simp only [h, Except.toOption, Option.map_some, Option.some.injEq, Prod.mk.injEq] at hinto
    exact ⟨r.1, r.2, rfl, hinto.1, hinto.2, (sequential_edges_of_build h).2⟩

end Builder

end InstrGraph

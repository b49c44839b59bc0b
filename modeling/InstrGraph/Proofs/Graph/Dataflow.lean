import InstrGraph.Proofs.Graph.Edges

/-!
# Which values and which control a graph shows

What an instruction takes is known from the function alone (`Builder.takes`), and so is where it
may go (`Instruction.successors`). `dataflow_of_build` says that the finished graph shows this and
nothing else: value by value and target by target, in their order and with their repetitions.

A parameter or a global has a node if some instruction takes it, and only then.
-/

namespace InstrGraph

namespace Graph

/-- The edges that carry values into a node. -/
def valuesInto (g : Graph) (n : Nat) : List Edge :=
  g.edges.filter fun e => e.carriesValue && e.target == n

/-- The edges by which control leaves a node. -/
def controlFrom (g : Graph) (n : Nat) : List Edge :=
  g.edges.filter fun e => e.isControl && e.source == n

end Graph

namespace Builder

variable {b : Builder} {g : Graph} {ds : List Diagnostic} {pre post : List Event} {block : Block}
  {i : Instruction} {s s' : BuildState} {new : List Edge}

namespace VisitOf

/-- The values into an instruction are those of the edges that its visit adds. -/
theorem valuesInto_eq (h : VisitOf b g pre block i s s' new) :
    g.valuesInto s.graph.slots.length = new.filter Edge.carriesValue := by
  rw [← h.filter_adder, Graph.valuesInto]
  refine List.filter_congr fun e _ => ?_
  cases hv : e.carriesValue with
  | false => rfl
  | true => rw [Edge.adder_eq_target (Edge.sort_of_carriesValue hv).2]

/-- The control from an instruction is that of the edges that its visit adds. -/
theorem controlFrom_eq (h : VisitOf b g pre block i s s' new) :
    g.controlFrom s.graph.slots.length = new.filter Edge.isControl := by
  rw [← h.filter_adder, Graph.controlFrom]
  refine List.filter_congr fun e _ => ?_
  cases hc : e.isControl with
  | false => rfl
  | true => rw [Edge.adder_eq_source hc]

/-- What flows into the instruction is what it takes. -/
theorem map_valuesInto (h : VisitOf b g pre block i s s' new) :
    (g.valuesInto s.graph.slots.length).map g.supplyOf? = (b.takes (visited pre) i).map some := by
  rw [h.valuesInto_eq, Graph.map_supplyOf?_of_isPrefix h.after h.added.values, h.walked]

/-- Control leads to the blocks of the targets. -/
theorem map_controlFrom (h : VisitOf b g pre block i s s' new) :
    (g.controlFrom s.graph.slots.length).map (fun e => g.keyAt? e.target) =
      i.successors.map fun t => some (targetKey t) := by
  rw [h.controlFrom_eq, ← h.added.control]
  refine List.map_congr_left fun e he => ?_
  obtain ⟨he, hc⟩ := List.mem_filter.mp he
  have hmem : s'.graph.keyAt? e.target ∈ i.successors.map fun t => some (targetKey t) :=
    h.added.control ▸ List.mem_map_of_mem (List.mem_filter.mpr ⟨he, hc⟩)
  obtain ⟨t, -, ht⟩ := List.mem_map.mp hmem
  rw [← ht, Graph.keyAt?_eq]
  exact Graph.getElem?_keys_of_isPrefix h.after (Graph.keyAt?_eq .. ▸ ht.symm)

end VisitOf

/-- What an instruction takes has a node, which an edge into the instruction leaves. -/
theorem exists_edge_of_mem_takes (h : b.build = .ok (g, ds)) {before after : List Instruction}
    (hsplit : b.function.instructions = before ++ i :: after) {x : Supply}
    (hx : x ∈ b.takes (before.map (·.id)) i) : ∃ e ∈ g.edges, g.keyAt? e.source = some x.key := by
  obtain ⟨pre, block, post, hsched, rfl⟩ := exists_event_of_split hsplit
  obtain ⟨s, s', new, hvisit⟩ := exists_visit_of_build h hsched
  have hmem : some x ∈ (g.valuesInto s.graph.slots.length).map g.supplyOf? := by
    rw [hvisit.map_valuesInto]
    exact List.mem_map_of_mem hx
  obtain ⟨e, he, hex⟩ := List.mem_map.mp hmem
  exact ⟨e, (List.mem_filter.mp he).1, Graph.keyAt?_eq .. ▸ (Graph.supplyOf?_eq_some.mp hex).1⟩

/-- The values and the control of a graph that was built. For an instruction `i` with the node `n`:

* control leads from `n` to the blocks of its targets if it is a `br`, `switch` or `invoke`, and
  nowhere else;
* values flow into `n` from what it takes, given the instructions walked before, by edges of the
  kinds that `takes` says.

No other edge carries a value or control, and a parameter or global has a node exactly if some
instruction takes it, which then an edge shows. -/
theorem dataflow_of_build (h : b.build = .ok (g, ds)) :
    (∀ before i after, b.function.instructions = before ++ i :: after →
      ∃ n, g.indexOf? i.key = some n ∧
        (g.controlFrom n).map (fun e => g.keyAt? e.target) =
          i.successors.map (fun t => some (targetKey t)) ∧
        (g.valuesInto n).map g.supplyOf? = (b.takes (before.map (·.id)) i).map some) ∧
      (∀ e ∈ g.edges, e.isControl = true →
        ∃ i ∈ b.function.instructions, g.keyAt? e.source = some i.key) ∧
      (∀ e ∈ g.edges, e.carriesValue = true →
        ∃ i ∈ b.function.instructions, g.keyAt? e.target = some i.key) ∧
      ∀ k : NodeKey, k.isOuter = true →
        (k ∈ g.keys ↔ ∃ before i after, b.function.instructions = before ++ i :: after ∧
          ∃ x ∈ b.takes (before.map (·.id)) i, x.key = k) ∧
        (k ∈ g.keys ↔ ∃ e ∈ g.edges, g.keyAt? e.source = some k) := by
  refine ⟨fun before i after hsplit => ?_, fun e he hc => ?_, fun e he hv => ?_, fun k ho => ?_⟩
  · obtain ⟨pre, block, post, hsched, rfl⟩ := exists_event_of_split hsplit
    obtain ⟨s, s', new, hvisit⟩ := exists_visit_of_build h hsched
    exact ⟨_, hvisit.indexOf?_node, hvisit.map_controlFrom, hvisit.map_valuesInto⟩
  · obtain ⟨i, hi, t, -, hconnects⟩ := control_cases h he hc
    exact ⟨i, hi, hconnects.1⟩
  · rcases value_cases h he hv with
      ⟨_, j, ⟨p, m, q, hsplit⟩, -, hc, -⟩ | ⟨j, hj, ⟨-, _, hc⟩ | ⟨-, _, hc⟩⟩
    · exact ⟨j, by simp [hsplit], hc.2⟩
    · exact ⟨j, hj, hc.2⟩
    · exact ⟨j, hj, hc.2⟩
  · -- a node is taken, what is taken has an edge, and what has an edge is a node
    have htaken : k ∈ g.keys → ∃ before i after, b.function.instructions = before ++ i :: after ∧
        ∃ x ∈ b.takes (before.map (·.id)) i, x.key = k := fun hk => by
      obtain ⟨pre, block, i, post, hsched, hx⟩ := exists_takes_of_isOuter h hk ho
      exact ⟨visits pre, i, visits post, instructions_of_split hsched, hx⟩
    have hedge : (∃ before i after, b.function.instructions = before ++ i :: after ∧
        ∃ x ∈ b.takes (before.map (·.id)) i, x.key = k) →
          ∃ e ∈ g.edges, g.keyAt? e.source = some k := by
      rintro ⟨before, i, after, hsplit, x, hx, rfl⟩
      exact exists_edge_of_mem_takes h hsplit hx
    have hnode : (∃ e ∈ g.edges, g.keyAt? e.source = some k) → k ∈ g.keys := by
      rintro ⟨e, -, hk⟩
      exact List.mem_of_getElem? (Graph.keyAt?_eq .. ▸ hk)
    exact ⟨⟨htaken, hnode ∘ hedge⟩, ⟨hedge ∘ htaken, hnode⟩⟩

/-- In the loop the global flows in twice, for the operand and for the usage, and the branch takes
only its condition. -/
theorem dataflow_of_loopExample :
    ∃ g ds, loopExample.build = .ok (g, ds) ∧
      (∃ n, g.indexOf? (.instruction 2) = some n ∧ (g.valuesInto n).map g.supplyOf? =
        [some ⟨.global "@global_var_0", .global⟩, some ⟨.global "@global_var_0", .global⟩]) ∧
      (∃ n, g.indexOf? (.instruction 4) = some n ∧
        (g.controlFrom n).map (fun e => g.keyAt? e.target) =
          [some (.block "%label_1"), some (.block "%label_2")] ∧
        (g.valuesInto n).map g.supplyOf? = [some ⟨.instruction 3, .condition⟩]) ∧
      (.parameter "%arg1" ∈ g.keys) := by
  have hok : loopExample.build.isOk = true := by decide +kernel
  cases h : loopExample.build with
  | error e => simp [h, Except.isOk, Except.toBool] at hok
  | ok r =>
    obtain ⟨hflow, -, -, houter⟩ := dataflow_of_build h
    obtain ⟨n, hn, -, hload⟩ := hflow (loopExample.function.instructions.take 1)
      loopExample.function.instructions[1] (loopExample.function.instructions.drop 2) (by decide)
    obtain ⟨m, hm, hbranch, hcondition⟩ := hflow (loopExample.function.instructions.take 3)
      loopExample.function.instructions[3] (loopExample.function.instructions.drop 4) (by decide)
    have hparam := ((houter (.parameter "%arg1") rfl).1).mpr
      ⟨loopExample.function.instructions.take 2, loopExample.function.instructions[2],
        loopExample.function.instructions.drop 3, by decide, ⟨.parameter "%arg1", .parameter⟩,
        by decide +kernel, rfl⟩
    refine ⟨r.1, r.2, rfl, ⟨n, hn, hload.trans ?_⟩, ⟨m, hm, hbranch.trans ?_, hcondition.trans ?_⟩,
      hparam⟩ <;> decide +kernel

end Builder

end InstrGraph

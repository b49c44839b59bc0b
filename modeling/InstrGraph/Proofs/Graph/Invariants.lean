import InstrGraph.Proofs.Graph.Run

/-!
# What holds throughout the walk

A visit changes its state by a few operations only: it makes nodes, adds edges, tracks leaves and
warns about operands. A property of states that none of these breaks (`BuildState.Lasts`) holds
after a visit if it holds before (`Lasts.walkInstruction`), and so it lasts for a whole run
(`Lasts.run`).
-/

namespace InstrGraph

namespace BuildState

/-- No operation of the walk ends the property. -/
structure Lasts (P : BuildState → Prop) : Prop where
  ensureNode : ∀ {s : BuildState} (key : NodeKey) (attrs : NodeAttrs),
    P s → P { s with graph := (s.graph.ensureNode key attrs).1 }
  addEdge : ∀ {s : BuildState} (source target : Nat) (kind : EdgeKind),
    P s → P (s.addEdge source target kind)
  trackLeaf : ∀ {s : BuildState} (n : Nat), P s → P { s with graph := s.graph.trackLeaf n }
  unresolved : ∀ {s : BuildState} (i : Instruction) (operand : String),
    P s → P (s.unresolved i operand)

namespace Lasts

variable {P : BuildState → Prop} {b : Builder} {s s' : BuildState} {i : Instruction} {n : Nat}

section

variable (h : Lasts P) (hs : P s)

include h hs

/-- A node, unless it is there, and an edge from it. -/
theorem addEdge_ensureNode (key : NodeKey) (attrs : NodeAttrs) (kind : EdgeKind) :
    P { s with
      graph := (s.graph.ensureNode key attrs).1.addEdge (s.graph.ensureNode key attrs).2 n kind } :=
  h.addEdge (s.graph.ensureNode key attrs).2 n kind (h.ensureNode key attrs hs)

/-- What lasts, lasts when the leaves are connected. -/
theorem connectLeaves : P (s.connectLeaves n) :=
  List.foldlRecOn _ _ hs fun _ hs leaf _ => h.addEdge leaf n .sequential hs

/-- What lasts, lasts when the edge from a producer is added. -/
theorem dataEdge (producer : UInt32) (kind : EdgeKind) : P (s.dataEdge i producer n kind) := by
  rw [BuildState.dataEdge]
  split
  · split
    · exact h.addEdge _ _ _ hs
    · exact hs
  · exact hs

/-- What lasts, lasts when the edge from a parameter is added. -/
theorem parameterEdge (name : String) : P (b.parameterEdge s name n) :=
  h.addEdge_ensureNode hs _ _ .parameter

/-- What lasts, lasts when the edge from a global is added. -/
theorem globalEdge (name : String) : P (b.globalEdge s name n) := by
  rw [Builder.globalEdge]
  split
  · split
    · exact h.addEdge_ensureNode hs _ _ .global
    · exact hs
  · exact hs

/-- What lasts, lasts when the edge of a value is added. -/
theorem valueEdge (value : String) (kind : EdgeKind) : P (b.valueEdge s i value n kind) := by
  rw [Builder.valueEdge]
  cases b.resolver.classify value none with
  | instruction producer => exact h.dataEdge hs producer kind
  | parameter name => exact h.parameterEdge hs name
  | unresolved => exact h.unresolved i value hs
  | _ => exact hs

/-- What lasts, lasts when the edge of an operand is added. -/
theorem operandEdge (operand : Operand × String) : P (b.operandEdge i n s operand) := by
  rw [Builder.operandEdge]
  cases operand.1 with
  | instruction producer => exact h.dataEdge hs producer .data
  | parameter name => exact h.parameterEdge hs name
  | global name => exact h.globalEdge hs name
  | unresolved => exact h.unresolved i operand.2 hs
  | _ => exact hs

/-- What lasts, lasts when the operands flow into an instruction. -/
theorem operandFlow : P (b.operandFlow s i n) := by
  have hoperands : P (((b.operandsOf i).zip i.operands).foldl (b.operandEdge i n) s) :=
    List.foldlRecOn _ _ hs fun _ hs operand _ => h.operandEdge hs operand
  have hglobals := List.foldlRecOn i.usage.globals
    (fun s key => b.globalEdge s (b.symbols.canonicalGlobal key) n) hoperands
    fun _ hs key _ => h.globalEdge hs (b.symbols.canonicalGlobal key)
  rw [Builder.operandFlow]
  cases i.calleeName? with
  | none => exact hglobals
  | some callee =>
    dsimp only
    split
    · exact h.parameterEdge hglobals callee
    · exact hglobals

/-- What lasts, lasts when the values of a terminator flow into it. -/
theorem valueFlow : P (b.valueFlow s i n) := by
  rw [Builder.valueFlow]
  cases i.opcode with
  | br | switch =>
    cases i.condition with
    | none => exact hs
    | some condition => exact h.valueEdge hs condition _
  | ret =>
    cases i.returnValue with
    | none => exact hs
    | some value => exact h.valueEdge hs value _
  | invoke => exact h.operandFlow hs
  | unreachable | call | other => exact hs

/-- What lasts, lasts through an instruction that is no terminator. -/
theorem plain (block : Nat) (blockIds : List UInt32) : P (b.plain block blockIds s i n) := by
  have hblock : P (if b.dependsOn blockIds i then s else s.addEdge block n .sequential) := by
    split
    · exact hs
    · exact h.addEdge _ _ _ hs
  exact h.trackLeaf n (h.operandFlow hblock)

/-- What lasts, lasts when the edges of control are added. -/
theorem controlEdges {targets : List String} (hr : Builder.controlEdges n s targets = .ok s') :
    P s' := by
  induction targets generalizing s with
  | nil =>
    obtain rfl : s = s' := Except.ok.inj hr
    exact hs
  | cons target rest ih =>
    rw [Builder.controlEdges] at hr
    split at hr
    · exact ih (h.addEdge _ _ _ hs) hr
    · cases hr

end

/-- What holds once the instruction has its node holds after the visit. -/
theorem walkInstruction_withNode (h : Lasts P) {block : Nat} {blockIds : List UInt32}
    (hnode : P (b.withNode s i)) (hr : b.walkInstruction block blockIds s i = .ok s') : P s' := by
  by_cases hkey : i.key ∈ s.graph.keys
  · rw [Builder.walkInstruction_of_mem hkey] at hr
    cases hr
  · cases hm : i.shapeFault? with
    | some m =>
      rw [Builder.walkInstruction_of_shapeFault hkey hm] at hr
      cases hr
    | none =>
      rw [Builder.walkInstruction_of_shaped hkey hm, Builder.flow] at hr
      split at hr
      · exact h.controlEdges (h.connectLeaves (h.valueFlow hnode)) hr
      · split at hr
        · exact h.controlEdges (h.valueFlow hnode) hr
        · obtain rfl := Except.ok.inj hr
          exact h.plain hnode block blockIds

/-- What lasts, lasts through the walk over an instruction. -/
theorem walkInstruction (h : Lasts P) {block : Nat} {blockIds : List UInt32} (hs : P s)
    (hr : b.walkInstruction block blockIds s i = .ok s') : P s' :=
  h.walkInstruction_withNode (h.ensureNode i.key _ hs) hr

/-- What lasts, lasts through every step. -/
theorem step (h : Lasts P) {event : Event} (hs : P s) (hr : b.step s event = .ok s') : P s' := by
  cases event with
  | enter block =>
    obtain rfl := Except.ok.inj hr
    exact h.trackLeaf (s.graph.entryOf block) hs
  | visit block i => exact h.walkInstruction hs (Builder.walkInstruction_of_step hr)

/-- The property lasts for a run, by induction on the events. -/
theorem run (h : Lasts P) {events : List Event} (hs : P s) (hr : b.run s events = .ok s') :
    P s' := by
  induction events generalizing s with
  | nil =>
    obtain rfl : s = s' := Except.ok.inj hr
    exact hs
  | cons event rest ih =>
    obtain ⟨t, hstep, hrest⟩ := Builder.run_cons_eq_ok.mp hr
    exact ih (h.step hs hstep) hrest

end Lasts

end BuildState

end InstrGraph

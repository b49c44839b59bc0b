import InstrGraph.Proofs.Graph.Dataflow
import InstrGraph.Proofs.Graph.Invariants
import InstrGraph.Proofs.Graph.Operations

/-!
# The flag of an instruction and its parameters

The node of an instruction has a flag that tells whether a parameter stands anywhere in the
instruction: among its operands, as what it calls, as its condition or as its return value. Edges
from parameters follow the opcode instead, which says from which of these places values flow
(`Opcode.places`). `parameters_of_build` says what the flag and the edges are in a finished graph.
An edge implies the flag, and the flag implies an edge if no parameter stands in another place.

The flag is set when the node is made. That it is still there in the end follows from what every
operation does to the nodes: it may add one behind the others, and leaves these as they are
(`BuildState.lasts_keeps`).
-/

namespace InstrGraph

/-! ### Nodes stay as they are -/

namespace BuildState

/-- The nodes of a graph are the first ones in the state, with the attributes that they had. -/
def Keeps (g : Graph) (s : BuildState) : Prop := g.described <+: s.graph.described

/-- What a graph has, it keeps. -/
theorem lasts_keeps (g : Graph) : Lasts (Keeps g) where
  ensureNode key attrs h := by
    refine List.IsPrefix.trans h ?_
    rw [Graph.described_ensureNode]
    split
    · exact List.prefix_refl _
    · exact List.prefix_append _ _
  addEdge source target kind h := by
    rw [Keeps, addEdge, Graph.described_addEdge]
    exact h
  trackLeaf n h := by
    rw [Keeps, Graph.described_trackLeaf]
    exact h
  unresolved _ _ h := h

end BuildState

namespace Builder

variable {b : Builder} {g : Graph} {ds : List Diagnostic} {i : Instruction}

/-- In a finished graph each instruction has a node with its text, the name of its opcode and its
flag. -/
theorem mem_described_of_build (h : b.build = .ok (g, ds)) (hi : i ∈ b.function.instructions) :
    (i.key, .instruction i.text i.opcode.name (b.usesParam i)) ∈ g.described := by
  obtain ⟨before, after, hsplit⟩ := List.append_of_mem hi
  obtain ⟨pre, block, post, hsched, -⟩ := exists_event_of_split hsplit
  obtain ⟨s₀, s₁, -, hrun, rfl⟩ := run_of_build h
  rw [hsched] at hrun
  obtain ⟨s, -, hrest⟩ := run_append_eq_ok.mp hrun
  obtain ⟨s', hstep, hpost⟩ := run_cons_eq_ok.mp hrest
  have hwalk := walkInstruction_of_step hstep
  have hfresh : i.key ∉ s.graph.keys := by
    intro hkey
    rw [walkInstruction_of_mem hkey] at hwalk
    cases hwalk
  -- the visit begins with the node, and what follows keeps it
  have hkeeps := BuildState.lasts_keeps (b.withNode s i).graph
  have hvisit := hkeeps.walkInstruction_withNode (List.prefix_refl _) hwalk
  refine (hkeeps.run hvisit hpost).mem ?_
  rw [withNode, Graph.described_ensureNode, if_neg hfresh]
  exact List.mem_append_right _ (List.mem_singleton_self _)

end Builder

/-! ### Places -/

/-- A place of an instruction where a parameter may stand. -/
inductive Instruction.Place where
  | operands
  | callee
  | condition
  | returnValue
  deriving DecidableEq, Repr

/-- The places from which values flow into an instruction. -/
def Opcode.places : Opcode → List Instruction.Place
  | br | switch => [.condition]
  | ret => [.returnValue]
  | unreachable => []
  | invoke | call | other _ => [.operands, .callee]

/-- The name of a parameter. -/
def Operand.parameter? : Operand → Option String
  | parameter name => some name
  | _ => none

/-- An operand is a parameter if it names one. -/
theorem Operand.isParameter_eq (o : Operand) : Builder.isParameter o = o.parameter?.isSome := by
  cases o <;> rfl

/-- Some element has an image exactly if there are images. -/
theorem any_isSome_iff {α β : Type} (f : α → Option β) (as : List α) :
    (as.any fun a => (f a).isSome) = true ↔ as.filterMap f ≠ [] := by
  rw [Ne, List.filterMap_eq_nil_iff]
  simp [Option.isSome_iff_ne_none]

namespace Builder

variable {b : Builder} {i : Instruction} {walked : List UInt32}

/-- The parameter that a condition or a return value stands for. -/
def valueParameter? (b : Builder) (value : String) : Option String :=
  (b.resolver.classify value none).parameter?

/-- The parameters in a place of an instruction. -/
def paramsIn (b : Builder) (i : Instruction) : Instruction.Place → List String
  | .operands => (b.operandsOf i).filterMap Operand.parameter?
  | .callee => if b.callsParam i then i.calleeName?.toList else []
  | .condition => i.condition.toList.filterMap b.valueParameter?
  | .returnValue => i.returnValue.toList.filterMap b.valueParameter?

/-- A parameter is called if the callee is one. -/
theorem callsParam_iff : b.callsParam i = true ↔ b.paramsIn i .callee ≠ [] := by
  rw [paramsIn, callsParam]
  cases i.calleeName? with
  | none => simp
  | some callee => simp

/-- The flag looks at all places. -/
theorem usesParam_iff : b.usesParam i = true ↔ ∃ place, b.paramsIn i place ≠ [] := by
  have hoperands : (b.operandsOf i).any isParameter = true ↔ b.paramsIn i .operands ≠ [] := by
    simp only [funext Operand.isParameter_eq]
    exact any_isSome_iff _ _
  have hvalue (values : List String) :
      (values.any fun v => isParameter (b.resolver.classify v none)) = true ↔
        values.filterMap b.valueParameter? ≠ [] := by
    simp only [Operand.isParameter_eq]
    exact any_isSome_iff _ _
  rw [usesParam, List.any_append, Bool.or_eq_true, Bool.or_eq_true, Bool.or_eq_true, callsParam_iff,
    hoperands, hvalue, hvalue]
  constructor
  · rintro ((h | h) | h | h)
    · exact ⟨.callee, h⟩
    · exact ⟨.operands, h⟩
    · exact ⟨.condition, h⟩
    · exact ⟨.returnValue, h⟩
  · rintro ⟨place, h⟩
    cases place with
    | operands => exact Or.inl (Or.inr h)
    | callee => exact Or.inl (Or.inl h)
    | condition => exact Or.inr (Or.inl h)
    | returnValue => exact Or.inr (Or.inr h)

end Builder

/-! ### Parameters among what is taken -/

/-- A parameter is taken. -/
def Supply.isParameter (x : Supply) : Bool := x.kind == .parameter

/-- The edge leads from a parameter. -/
def Edge.isParameter (e : Edge) : Bool := e.kind == .parameter

namespace Graph

variable {g : Graph} {n : Nat}

/-- The edges from parameters into a node. -/
def parametersInto (g : Graph) (n : Nat) : List Edge :=
  g.edges.filter fun e => e.isParameter && e.target == n

/-- The parameters that flow into a node are among the values that do. -/
theorem parametersInto_eq (g : Graph) (n : Nat) :
    g.parametersInto n = (g.valuesInto n).filter Edge.isParameter := by
  rw [parametersInto, valuesInto, List.filter_filter]
  refine List.filter_congr fun e _ => ?_
  cases hk : e.kind <;>
    simp [Edge.isParameter, Edge.carriesValue, EdgeKind.carriesValue, hk]

/-- If edges carry what is supplied, those from parameters carry the parameters. -/
theorem filter_isParameter_of_supplies {edges : List Edge} {supplies : List Supply}
    (h : edges.map g.supplyOf? = supplies.map some) :
    (edges.filter Edge.isParameter).map (fun e => g.keyAt? e.source) =
      (supplies.filter Supply.isParameter).map fun x => some x.key := by
  induction edges generalizing supplies with
  | nil =>
    obtain rfl : supplies = [] := by simpa using h.symm
    rfl
  | cons e rest ih =>
    cases supplies with
    | nil => simp at h
    | cons x more =>
      rw [List.map_cons, List.map_cons, List.cons.injEq] at h
      obtain ⟨hsupply, hrest⟩ := h
      obtain ⟨hkey, hkind⟩ := supplyOf?_eq_some.mp hsupply
      have hsame : e.isParameter = x.isParameter := by
        rw [Edge.isParameter, Supply.isParameter, hkind]
      rw [List.filter_cons, List.filter_cons, hsame]
      cases x.isParameter with
      | true =>
        rw [if_pos rfl, if_pos rfl, List.map_cons, List.map_cons, ih hrest, keyAt?_eq, hkey]
      | false => exact ih hrest

/-- The flag of the node of an instruction. -/
def usesParamAt? (g : Graph) (n : Nat) : Option Bool :=
  match g.slots[n]?.map Slot.attrs with
  | some (.instruction _ _ flag) => some flag
  | _ => none

/-- The flag of an instruction is found in its attributes. -/
theorem usesParamAt?_of_described {k : NodeKey} {text opcode : String} {flag : Bool}
    (h : g.described[n]? = some (k, .instruction text opcode flag)) :
    g.usesParamAt? n = some flag := by
  rw [described, List.getElem?_map, Option.map_eq_some_iff] at h
  obtain ⟨slot, hslot, hattrs⟩ := h
  rw [usesParamAt?, hslot, Option.map_some, (Prod.mk.inj hattrs).2]

end Graph

namespace Builder

variable {b : Builder} {g : Graph} {ds : List Diagnostic} {i : Instruction} {walked : List UInt32}

/-- No parameter comes from an instruction. -/
theorem filter_fromInstruction {kind : EdgeKind} (hk : kind ≠ .parameter) (producer : UInt32) :
    (fromInstruction walked i kind producer).filter Supply.isParameter = none := by
  rw [fromInstruction]
  split
  · simp [Supply.isParameter, hk]
  · rfl

/-- No parameter comes from a global. -/
theorem filter_fromGlobal (name : String) :
    (b.fromGlobal name).filter Supply.isParameter = none := by
  rw [fromGlobal]
  split <;> rfl

/-- What an operand takes of parameters is the one that it is. -/
theorem filter_fromOperand (o : Operand) :
    (b.fromOperand walked i o).filter Supply.isParameter = o.parameter?.map fromParameter := by
  cases o with
  | instruction producer => exact filter_fromInstruction (by simp) producer
  | global name => exact filter_fromGlobal name
  | _ => rfl

/-- What a value takes of parameters is the one that it resolves to. -/
theorem filter_fromValue {kind : EdgeKind} (hk : kind ≠ .parameter) (value : String) :
    (b.fromValue walked i kind value).filter Supply.isParameter =
      (b.valueParameter? value).map fromParameter := by
  rw [fromValue, valueParameter?]
  cases b.resolver.classify value none with
  | instruction producer => exact filter_fromInstruction hk producer
  | _ => rfl

/-- Values of a list that are taken are parameters where they stand for one. -/
theorem filter_values {kind : EdgeKind} (hk : kind ≠ .parameter) (values : List String) :
    (values.filterMap (b.fromValue walked i kind)).filter Supply.isParameter =
      (values.filterMap b.valueParameter?).map fromParameter := by
  rw [List.filter_filterMap, List.map_filterMap]
  simp only [filter_fromValue hk]

/-- The edge of a condition is none of a parameter. -/
theorem conditionKind_ne_parameter (b : Builder) : b.conditionKind ≠ .parameter := by
  rw [conditionKind]
  cases b.config.conditionEdge <;> simp

/-- What an instruction takes of parameters are those among its operands and its callee. -/
theorem filter_takesOperands :
    (b.takesOperands walked i).filter Supply.isParameter =
      (b.paramsIn i .operands ++ b.paramsIn i .callee).map fromParameter := by
  have hoperands : ((b.operandsOf i).filterMap (b.fromOperand walked i)).filter
      Supply.isParameter = (b.paramsIn i .operands).map fromParameter := by
    rw [List.filter_filterMap, paramsIn, List.map_filterMap]
    simp only [filter_fromOperand]
  have hglobals : (i.usage.globals.filterMap fun key =>
      b.fromGlobal (b.symbols.canonicalGlobal key)).filter Supply.isParameter = [] := by
    rw [List.filter_filterMap, List.filterMap_eq_nil_iff]
    exact fun key _ => filter_fromGlobal _
  have hcallee : (if b.callsParam i then i.calleeName?.toList.map fromParameter else []).filter
      Supply.isParameter = (b.paramsIn i .callee).map fromParameter := by
    rw [paramsIn]
    split
    · cases i.calleeName? <;> rfl
    · rfl
  rw [takesOperands, List.filter_append, List.filter_append, hoperands, hglobals, hcallee,
    List.append_nil, List.map_append]

/-- The parameters that are taken are those in the places of the opcode. -/
theorem filter_takes (b : Builder) (walked : List UInt32) (i : Instruction) :
    (b.takes walked i).filter Supply.isParameter =
      (i.opcode.places.flatMap (b.paramsIn i)).map fromParameter := by
  rw [takes]
  cases hop : i.opcode with
  | br | switch =>
    simpa [Opcode.places, paramsIn] using filter_values b.conditionKind_ne_parameter _
  | ret => simpa [Opcode.places, paramsIn] using filter_values (by simp) _
  | unreachable => rfl
  | invoke | call | other => simpa [Opcode.places] using filter_takesOperands

/-- Edges lead from the parameters in the places of the opcode, in their order. -/
theorem VisitOf.map_parametersInto {pre : List Event} {block : Block} {s s' : BuildState}
    {new : List Edge} (h : VisitOf b g pre block i s s' new) :
    (g.parametersInto s.graph.slots.length).map (fun e => g.keyAt? e.source) =
      (i.opcode.places.flatMap (b.paramsIn i)).map fun name => some (.parameter name) := by
  rw [Graph.parametersInto_eq, Graph.filter_isParameter_of_supplies h.map_valuesInto,
    filter_takes, List.map_map]
  rfl

/-- The node of an instruction has the flag of the instruction. -/
theorem usesParamAt?_of_build (h : b.build = .ok (g, ds)) (hi : i ∈ b.function.instructions)
    {n : Nat} (hd : g.keys.Nodup) (hn : g.indexOf? i.key = some n) :
    g.usesParamAt? n = some (b.usesParam i) := by
  obtain ⟨m, hm⟩ := List.getElem?_of_mem (mem_described_of_build h hi)
  have hkey : g.keys[m]? = some i.key := by
    rw [Graph.keys_eq_described, List.getElem?_map, hm]
    rfl
  obtain rfl : m = n :=
    Option.some.inj (((Graph.indexOf?_eq_some_iff hd).mpr hkey).symm.trans hn)
  exact Graph.usesParamAt?_of_described hm

/-- The flag and the edges from parameters in a graph that was built. The flag of an instruction
tells whether a parameter stands in any of its places. The edges come from the parameters in the
places of its opcode, in their order and with their repetitions.

So an edge from a parameter implies the flag, and where parameters stand in no other places, the
flag implies an edge. -/
theorem parameters_of_build (h : b.build = .ok (g, ds)) (hi : i ∈ b.function.instructions) :
    ∃ n flag, g.indexOf? i.key = some n ∧ g.usesParamAt? n = some flag ∧
      (flag = true ↔ ∃ place, b.paramsIn i place ≠ []) ∧
      (g.parametersInto n).map (fun e => g.keyAt? e.source) =
        (i.opcode.places.flatMap (b.paramsIn i)).map (fun name => some (.parameter name)) ∧
      (g.parametersInto n ≠ [] ↔ ∃ place ∈ i.opcode.places, b.paramsIn i place ≠ []) ∧
      (g.parametersInto n ≠ [] → flag = true) ∧
      ((∀ place, b.paramsIn i place ≠ [] → place ∈ i.opcode.places) →
        (flag = true ↔ g.parametersInto n ≠ [])) := by
  obtain ⟨before, after, hsplit⟩ := List.append_of_mem hi
  obtain ⟨pre, block, post, hsched, -⟩ := exists_event_of_split hsplit
  obtain ⟨s, s', new, hvisit⟩ := exists_visit_of_build h hsched
  have hflag := usesParamAt?_of_build h hi hvisit.nodup hvisit.indexOf?_node
  have hsources := hvisit.map_parametersInto
  have hedges : g.parametersInto s.graph.slots.length ≠ [] ↔
      ∃ place ∈ i.opcode.places, b.paramsIn i place ≠ [] := by
    rw [Ne, ← List.map_eq_nil_iff, hsources, List.map_eq_nil_iff, List.flatMap_eq_nil_iff]
    push Not
    rfl
  have himplies : g.parametersInto s.graph.slots.length ≠ [] → b.usesParam i = true := by
    intro he
    obtain ⟨place, -, hparams⟩ := hedges.mp he
    exact usesParam_iff.mpr ⟨place, hparams⟩
  refine ⟨_, _, hvisit.indexOf?_node, hflag, usesParam_iff, hsources, hedges, himplies,
    fun hplaces => ⟨fun hused => ?_, himplies⟩⟩
  obtain ⟨place, hparams⟩ := usesParam_iff.mp hused
  exact hedges.mpr ⟨place, hplaces place hparams, hparams⟩

/-- A call through a parameter that is given another one, and a `ret` that has the same one among
its operands only. -/
def paramExample : Builder :=
  .of
    { name := "f", params := ["ptr %arg1", "i32 %arg2"]
      blocks := [
        ⟨"%label_0", [{ id := 1, opcode := .call, text := "call void %arg1(i32 %arg2)",
                        callee := some "%arg1", operands := ["i32 %arg2"] },
                      { id := 2, opcode := .ret, text := "ret i32 %arg2",
                        operands := ["i32 %arg2"] }]⟩] }
    (.empty .label true) {} {} "<const>"

/-- Both parameters of the call flow into it. -/
theorem parameters_of_paramExample :
    ∃ g ds, paramExample.build = .ok (g, ds) ∧
      ∃ n, g.indexOf? (.instruction 1) = some n ∧ g.usesParamAt? n = some true ∧
        (g.parametersInto n).map (fun e => g.keyAt? e.source) =
          [some (NodeKey.parameter "%arg2"), some (NodeKey.parameter "%arg1")] := by
  have hok : paramExample.build.isOk = true := by decide +kernel
  cases h : paramExample.build with
  | error e => simp [h, Except.isOk, Except.toBool] at hok
  | ok r =>
    obtain ⟨n, flag, hn, hflag, -, hsources, -, himplies, -⟩ :=
      parameters_of_build (i := paramExample.function.instructions[0]) h (List.getElem_mem _)
    have htwo : (r.1.parametersInto n).map (fun e => r.1.keyAt? e.source) =
        [some (NodeKey.parameter "%arg2"), some (NodeKey.parameter "%arg1")] :=
      hsources.trans (by decide +kernel)
    have hne : r.1.parametersInto n ≠ [] := by
      intro hnil
      simp [hnil] at htwo
    rw [himplies hne] at hflag
    exact ⟨r.1, r.2, rfl, n, hn, hflag, htwo⟩

/-- The flag of the `ret` is set, though no edge leads from a parameter to it. -/
theorem usesParam_without_edge :
    ∃ g ds, paramExample.build = .ok (g, ds) ∧
      ∃ n, g.indexOf? (.instruction 2) = some n ∧ g.usesParamAt? n = some true ∧
        g.parametersInto n = [] := by
  have hret : (paramExample.build.toOption.map fun r =>
      (r.1.indexOf? (.instruction 2), r.1.usesParamAt? 5, r.1.parametersInto 5)) =
        some (some 5, some true, []) := by decide +kernel
  cases h : paramExample.build with
  | error e => simp [h, Except.toOption] at hret
  | ok r =>
    simp only [h, Except.toOption, Option.map_some, Option.some.injEq, Prod.mk.injEq] at hret
    exact ⟨r.1, r.2, rfl, 5, hret⟩

end Builder

end InstrGraph

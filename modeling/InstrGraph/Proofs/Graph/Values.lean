import InstrGraph.Graph.Build
import InstrGraph.Proofs.Graph.Arena

/-!
# What flows into an instruction

`Builder.takes` lists what an instruction takes, in order: the node that each value comes from and
the kind of edge by which it flows. It is read off the instruction and the ids of those walked
before it; no graph is needed.

`Supplied` says that a graph is another one with the edges of such a list added, and with the nodes
that they leave. It composes, so what the builder does to the graph is shown operand by operand and
holds of all of them: `supplied_operandFlow`, `supplied_valueFlow`.
-/

namespace InstrGraph

/-- The edge carries a value into the instruction at its target. -/
def EdgeKind.carriesValue : EdgeKind → Bool
  | data | parameter | global | condition => true
  | entry | sequential | control => false

namespace Edge

/-- The node on whose visit the edge is added: control leaves the instruction that is visited,
everything else enters it. -/
def adder (e : Edge) : Nat := if e.kind = .control then e.source else e.target

/-- The edge leads from a block or leaf to an instruction. -/
def isSequential (e : Edge) : Bool := e.kind == .sequential

/-- The edge leads from a terminator to a block. -/
def isControl (e : Edge) : Bool := e.kind == .control

/-- The edge carries a value. -/
def carriesValue (e : Edge) : Bool := e.kind.carriesValue

/-- The edge carries a value into a node. -/
def Feeds (n : Nat) (e : Edge) : Prop := e.target = n ∧ e.carriesValue = true

/-- Control leaves a node by the edge. -/
def Controls (n : Nat) (e : Edge) : Prop := e.source = n ∧ e.kind = .control

variable {n : Nat} {e : Edge}

/-- An edge that is not one of control is added on the visit to its target. -/
theorem adder_eq_target (h : e.isControl = false) : e.adder = e.target := by
  have hk : e.kind ≠ .control := by simpa [isControl] using h
  rw [adder, if_neg hk]

/-- An edge of control is added on the visit to its source. -/
theorem adder_eq_source (h : e.isControl = true) : e.adder = e.source := by
  have hk : e.kind = .control := by simpa [isControl] using h
  rw [adder, if_pos hk]

/-- An edge is of one sort. -/
theorem sort_of_isSequential (h : e.isSequential = true) :
    e.carriesValue = false ∧ e.isControl = false := by
  have hk : e.kind = .sequential := by simpa [isSequential] using h
  simp [carriesValue, isControl, EdgeKind.carriesValue, hk]

/-- An edge that carries a value is neither sequential nor one of control. -/
theorem sort_of_carriesValue (h : e.carriesValue = true) :
    e.isSequential = false ∧ e.isControl = false := by
  cases hk : e.kind <;> simp_all [carriesValue, EdgeKind.carriesValue, isSequential, isControl]

/-- An edge into a node that carries a value is not sequential. -/
theorem Feeds.not_isSequential (h : e.Feeds n) : e.isSequential = false :=
  (sort_of_carriesValue h.2).1

/-- An edge into a node that carries a value is not one of control. -/
theorem Feeds.not_isControl (h : e.Feeds n) : e.isControl = false :=
  (sort_of_carriesValue h.2).2

/-- An edge that carries a value into a node is added on the visit to that node. -/
theorem Feeds.adder (h : e.Feeds n) : e.adder = n :=
  (adder_eq_target h.not_isControl).trans h.1

/-- An edge by which control leaves a node is one of control. -/
theorem Controls.isControl (h : e.Controls n) : e.isControl = true := by simp [Edge.isControl, h.2]

/-- An edge by which control leaves a node is added on the visit to that node. -/
theorem Controls.adder (h : e.Controls n) : e.adder = n := by rw [Edge.adder, if_pos h.2, h.1]

/-- An edge by which control leaves a node is not sequential. -/
theorem Controls.not_isSequential (h : e.Controls n) : e.isSequential = false := by
  simp [isSequential, h.2]

/-- An edge by which control leaves a node carries no value. -/
theorem Controls.not_carriesValue (h : e.Controls n) : e.carriesValue = false := by
  simp [carriesValue, EdgeKind.carriesValue, h.2]

end Edge

/-- The node stands for something outside of the blocks. It is made when it is first needed. -/
def NodeKey.isOuter : NodeKey → Bool
  | parameter _ | global _ => true
  | function | block _ | instruction _ => false

/-- The id of an instruction, if the node stands for one. -/
def NodeKey.instructionId? : NodeKey → Option UInt32
  | instruction id => some id
  | function | block _ | parameter _ | global _ => none

/-- Only the key of an instruction has an id. -/
@[simp] theorem NodeKey.instructionId?_eq_some {k : NodeKey} {id : UInt32} :
    k.instructionId? = some id ↔ k = .instruction id := by
  cases k <;> simp [instructionId?]

/-- A value that is taken: the node it comes from and the kind of edge by which it flows. -/
structure Supply where
  key : NodeKey
  kind : EdgeKind
  deriving DecidableEq, Repr

namespace Graph

/-- The ids of the instructions that have a node. -/
def walked (g : Graph) : List UInt32 := g.keys.filterMap NodeKey.instructionId?

/-- An instruction has been walked if it has a node. -/
theorem mem_walked {g : Graph} {id : UInt32} : id ∈ g.walked ↔ .instruction id ∈ g.keys := by
  simp [walked]

/-- Nodes for what is outside of the blocks do not count. -/
theorem walked_of_isPrefix {g : Graph} {ks : List NodeKey} (hk : ks <+: g.keys)
    (hd : g.keys.Nodup) (ho : ∀ k ∈ g.keys, k ∈ ks ∨ k.isOuter = true) :
    g.walked = ks.filterMap NodeKey.instructionId? := by
  obtain ⟨more, hmore⟩ := hk
  rw [← hmore] at hd ho
  have hnone : more.filterMap NodeKey.instructionId? = [] := by
    refine List.filterMap_eq_nil_iff.mpr fun k hk => ?_
    rcases ho k (List.mem_append_right _ hk) with hmem | ho
    · exact absurd rfl ((List.nodup_append.mp hd).2.2 k hmem k hk)
    · cases k <;> simp_all [NodeKey.isOuter, NodeKey.instructionId?]
  rw [walked, ← hmore, List.filterMap_append, hnone, List.append_nil]

/-- What flows along an edge. -/
def supplyOf? (g : Graph) (e : Edge) : Option Supply := (g.keyAt? e.source).map (⟨·, e.kind⟩)

/-- What flows along an edge is given by the key of its source and by its kind. -/
theorem supplyOf?_eq_some {g : Graph} {e : Edge} {x : Supply} :
    g.supplyOf? e = some x ↔ g.keys[e.source]? = some x.key ∧ e.kind = x.kind := by
  obtain ⟨key, kind⟩ := x
  simp [supplyOf?, keyAt?_eq]

/-- What flows along an edge depends on the nodes only. -/
theorem supplyOf?_of_keys_eq {g g' : Graph} (hk : g'.keys = g.keys) :
    g'.supplyOf? = g.supplyOf? := by
  funext e
  rw [supplyOf?, supplyOf?, keyAt?_eq, keyAt?_eq, hk]

/-- What flows along an edge stays the same when nodes are added. -/
theorem supplyOf?_of_isPrefix {g g' : Graph} (hk : g.keys <+: g'.keys) {e : Edge} {x : Supply}
    (h : g.supplyOf? e = some x) : g'.supplyOf? e = some x := by
  obtain ⟨hkey, hkind⟩ := supplyOf?_eq_some.mp h
  exact supplyOf?_eq_some.mpr ⟨getElem?_keys_of_isPrefix hk hkey, hkind⟩

/-- Nodes that are added later do not change what flows along edges that are there. -/
theorem map_supplyOf?_of_isPrefix {g g' : Graph} (hk : g.keys <+: g'.keys) {edges : List Edge}
    {supplies : List Supply} (h : edges.map g.supplyOf? = supplies.map some) :
    edges.map g'.supplyOf? = supplies.map some := by
  rw [← h]
  refine List.map_congr_left fun e he => ?_
  have hmem : g.supplyOf? e ∈ supplies.map some := h ▸ List.mem_map_of_mem he
  obtain ⟨x, -, hx⟩ := List.mem_map.mp hmem
  rw [← hx, supplyOf?_of_isPrefix hk hx.symm]

/-- The instructions below a bound that have a node are the walked ones. -/
def HasWalked (g : Graph) (walked : List UInt32) (bound : UInt32) : Prop :=
  ∀ id < bound, (.instruction id ∈ g.keys ↔ id ∈ walked)

/-- The graph `g'` is `g` with values flowing into the node `n`. -/
structure Supplied (tracked : List NodeKey) (n : Nat) (supplies : List Supply) (g g' : Graph) :
    Prop where
  tracks : g'.Tracks tracked
  keys : g.keys <+: g'.keys
  outer : ∀ k ∈ g'.keys, k ∈ g.keys ∨ k.isOuter = true ∧ ∃ x ∈ supplies, x.key = k
  edges : ∃ new, g'.edges = g.edges ++ new ∧ new.map g'.supplyOf? = supplies.map some ∧
    ∀ e ∈ new, e.Feeds n

namespace Supplied

variable {tracked : List NodeKey} {n : Nat} {supplies supplies' : List Supply} {g g' g'' : Graph}

/-- A graph is itself with nothing flowing into a node. -/
theorem refl (h : g.Tracks tracked) : Supplied tracked n [] g g :=
  ⟨h, List.prefix_refl _, fun _ hk => Or.inl hk, [], by simp⟩

/-- Values that flow into a node one after the other are put in a row. -/
theorem trans (h : Supplied tracked n supplies g g') (h' : Supplied tracked n supplies' g' g'') :
    Supplied tracked n (supplies ++ supplies') g g'' := by
  obtain ⟨new, hnew, hmap, hfeeds⟩ := h.edges
  obtain ⟨new', hnew', hmap', hfeeds'⟩ := h'.edges
  refine ⟨h'.tracks, h.keys.trans h'.keys, fun k hk => ?_, new ++ new', ?_, ?_, ?_⟩
  · rcases h'.outer k hk with hk | ⟨ho, x, hx, hxk⟩
    · rcases h.outer k hk with hk | ⟨ho, x, hx, hxk⟩
      · exact Or.inl hk
      · exact Or.inr ⟨ho, x, List.mem_append_left _ hx, hxk⟩
    · exact Or.inr ⟨ho, x, List.mem_append_right _ hx, hxk⟩
  · rw [hnew', hnew, List.append_assoc]
  · rw [List.map_append, List.map_append, map_supplyOf?_of_isPrefix h'.keys hmap, hmap']
  · intro e he
    exact (List.mem_append.mp he).elim (hfeeds e) (hfeeds' e)

/-- An edge from a node that is there. -/
theorem addEdge (h : g.Tracks tracked) {source : Nat} {key : NodeKey}
    (hs : g.keys[source]? = some key) {kind : EdgeKind} (hk : kind.carriesValue = true) :
    Supplied tracked n [⟨key, kind⟩] g (g.addEdge source n kind) := by
  have hlt : source < g.slots.length := by simpa using (List.getElem?_eq_some_iff.mp hs).1
  have hsupply : (g.addEdge source n kind).supplyOf? ⟨source, n, kind⟩ = some ⟨key, kind⟩ := by
    rw [supplyOf?_eq_some, keys_addEdge]
    exact ⟨hs, rfl⟩
  exact ⟨h.addEdge hlt n kind, by simp, fun k hk => Or.inl (by simpa using hk),
    [⟨source, n, kind⟩], rfl, congrArg (· :: []) hsupply, by simpa using ⟨rfl, hk⟩⟩

/-- An edge from a node that is made, unless it is there. -/
theorem addEdge_ensureNode (h : g.Tracks tracked) {key : NodeKey} (ho : key.isOuter = true)
    (attrs : NodeAttrs) {kind : EdgeKind} (hk : kind.carriesValue = true) :
    Supplied tracked n [⟨key, kind⟩] g
      ((g.ensureNode key attrs).1.addEdge (g.ensureNode key attrs).2 n kind) := by
  have hedge := addEdge (n := n) (h.ensureNode key attrs) (h.keys_ensureNode key attrs) hk
  have hkeys := keys_ensureNode g key attrs
  obtain ⟨new, hnew, hmap, hfeeds⟩ := hedge.edges
  refine ⟨hedge.tracks, ?_, fun k hk => ?_, new, ?_, hmap, hfeeds⟩
  · refine List.IsPrefix.trans ?_ hedge.keys
    rw [hkeys]
    split
    · exact List.prefix_refl _
    · exact List.prefix_append _ _
  · rw [keys_addEdge, hkeys] at hk
    split at hk
    · exact Or.inl hk
    · rcases List.mem_append.mp hk with hk | hk
      · exact Or.inl hk
      · obtain rfl := List.mem_singleton.mp hk
        exact Or.inr ⟨ho, _, List.mem_singleton_self _, rfl⟩
  · rw [hnew, edges_ensureNode]

/-- No instruction gets a node. -/
theorem hasWalked (h : Supplied tracked n supplies g g') {walked : List UInt32} {bound : UInt32}
    (hw : g.HasWalked walked bound) : g'.HasWalked walked bound := by
  intro id hid
  rw [← hw id hid]
  refine ⟨fun hk => ?_, fun hk => h.keys.mem hk⟩
  rcases h.outer _ hk with hk | ⟨ho, -⟩
  · exact hk
  · simp [NodeKey.isOuter] at ho

/-- What one step of a fold supplies, the whole fold supplies. -/
theorem foldl {α : Type} {f : BuildState → α → BuildState} {F : α → List Supply}
    {walked : List UInt32} {bound : UInt32} {s : BuildState}
    (hf : ∀ (s : BuildState) a, s.graph.Tracks tracked → s.graph.HasWalked walked bound →
      Supplied tracked n (F a) s.graph (f s a).graph)
    (items : List α) (h : s.graph.Tracks tracked) (hw : s.graph.HasWalked walked bound) :
    Supplied tracked n (items.flatMap F) s.graph (items.foldl f s).graph := by
  induction items generalizing s with
  | nil => exact .refl h
  | cons a rest ih =>
    have ha := hf s a h hw
    exact ha.trans (ih ha.tracks (ha.hasWalked hw))

end Supplied

end Graph

/-! ### What an instruction takes -/

namespace Builder

/-- The global becomes a node: the metadata knows it, and it is no string and no aggregate. -/
def materializes (b : Builder) (canonical : String) : Bool :=
  (b.metadata.global? (b.symbols.globalKey canonical)).any fun info =>
    info.globalType.isMaterialized

/-- The value of an instruction. Values only flow forward. -/
def fromInstruction (walked : List UInt32) (i : Instruction) (kind : EdgeKind) (producer : UInt32) :
    Option Supply :=
  if producer < i.id ∧ producer ∈ walked then some ⟨.instruction producer, kind⟩ else none

/-- A parameter. -/
def fromParameter (name : String) : Supply := ⟨.parameter name, .parameter⟩

/-- The value of a global, if it becomes a node. -/
def fromGlobal (b : Builder) (canonical : String) : Option Supply :=
  if b.materializes canonical then some ⟨.global canonical, .global⟩ else none

/-- What is taken for an operand. -/
def fromOperand (b : Builder) (walked : List UInt32) (i : Instruction) : Operand → Option Supply
  | .instruction producer => fromInstruction walked i .data producer
  | .parameter name => some (fromParameter name)
  | .global name => b.fromGlobal name
  | .constant _ | .callTarget _ | .label _ | .unresolved => none

/-- What is taken for a condition or a return value. Globals are not. -/
def fromValue (b : Builder) (walked : List UInt32) (i : Instruction) (kind : EdgeKind)
    (value : String) : Option Supply :=
  match b.resolver.classify value none with
  | .instruction producer => fromInstruction walked i kind producer
  | .parameter name => some (fromParameter name)
  | _ => none

/-- What an instruction takes for its operands, for the globals in its usage, and for the parameter
that it calls. -/
def takesOperands (b : Builder) (walked : List UInt32) (i : Instruction) : List Supply :=
  (b.operandsOf i).filterMap (b.fromOperand walked i) ++
    i.usage.globals.filterMap (fun key => b.fromGlobal (b.symbols.canonicalGlobal key)) ++
    if b.callsParam i then i.calleeName?.toList.map fromParameter else []

/-- What an instruction takes when those of some ids are walked. Of a `br` or `switch` only the
condition counts, and of a `ret` only the return value. -/
def takes (b : Builder) (walked : List UInt32) (i : Instruction) : List Supply :=
  match i.opcode with
  | .br | .switch => i.condition.toList.filterMap (b.fromValue walked i b.conditionKind)
  | .ret => i.returnValue.toList.filterMap (b.fromValue walked i .data)
  | .unreachable => []
  | .invoke | .call | .other _ => b.takesOperands walked i

/-- An instruction that is no terminator takes its operands. -/
theorem takes_of_not_isTerminator (b : Builder) (walked : List UInt32) {i : Instruction}
    (h : i.isTerminator = false) : b.takes walked i = b.takesOperands walked i := by
  rw [Instruction.isTerminator] at h
  rw [takes]
  cases hop : i.opcode <;> simp_all [Opcode.isTerminator]

/-- The values that a terminator takes have flowed into it. -/
def valueFlow (b : Builder) (s : BuildState) (i : Instruction) (node : Nat) : BuildState :=
  match i.opcode with
  | .br | .switch =>
    match i.condition with
    | some condition => b.valueEdge s i condition node b.conditionKind
    | none => s
  | .ret =>
    match i.returnValue with
    | some value => b.valueEdge s i value node .data
    | none => s
  | .invoke => b.operandFlow s i node
  | .unreachable | .call | .other _ => s

variable {b : Builder} {s : BuildState} {tracked : List NodeKey} {n : Nat} {i : Instruction}
  {walked : List UInt32} {kind : EdgeKind}

/-- The edge of a condition carries a value, whatever its kind is. -/
theorem conditionKind_carriesValue (b : Builder) : b.conditionKind.carriesValue = true := by
  unfold conditionKind
  split <;> rfl

/-- The edge from a producer brings its value, if the producer has been walked. -/
theorem supplied_dataEdge (h : s.graph.Tracks tracked) (hw : s.graph.HasWalked walked i.id)
    (hk : kind.carriesValue = true) (producer : UInt32) :
    Graph.Supplied tracked n (fromInstruction walked i kind producer).toList
      s.graph (s.dataEdge i producer n kind).graph := by
  rw [BuildState.dataEdge, fromInstruction]
  by_cases hlt : producer < i.id
  · cases hidx : s.graph.indexOf? (.instruction producer) with
    | none =>
      have hnot := Graph.indexOf?_eq_none_iff.mp hidx
      rw [hw producer hlt] at hnot
      simpa [hlt, hnot] using Graph.Supplied.refl h
    | some source =>
      have hkey := (Graph.indexOf?_eq_some_iff h.nodup).mp hidx
      have hmem := (hw producer hlt).mp (List.mem_of_getElem? hkey)
      simpa [hlt, hmem, BuildState.addEdge] using Graph.Supplied.addEdge h hkey hk
  · simpa [hlt] using Graph.Supplied.refl h

/-- The edge from a parameter brings its value. -/
theorem supplied_parameterEdge (h : s.graph.Tracks tracked) (name : String) :
    Graph.Supplied tracked n [fromParameter name] s.graph (b.parameterEdge s name n).graph :=
  .addEdge_ensureNode h rfl _ rfl

/-- The edge from a global brings its value, if there is one. -/
theorem supplied_globalEdge (h : s.graph.Tracks tracked) (name : String) :
    Graph.Supplied tracked n (b.fromGlobal name).toList s.graph (b.globalEdge s name n).graph := by
  rw [globalEdge, fromGlobal, materializes]
  cases b.metadata.global? (b.symbols.globalKey name) with
  | none => exact .refl h
  | some info =>
    cases hm : info.globalType.isMaterialized with
    | false => simpa [hm] using Graph.Supplied.refl h
    | true => simpa [hm] using Graph.Supplied.addEdge_ensureNode h rfl _ rfl

/-- The edge of a value brings what the value resolves to. -/
theorem supplied_valueEdge (h : s.graph.Tracks tracked) (hw : s.graph.HasWalked walked i.id)
    (hk : kind.carriesValue = true) (value : String) :
    Graph.Supplied tracked n (b.fromValue walked i kind value).toList s.graph
      (b.valueEdge s i value n kind).graph := by
  rw [valueEdge, fromValue]
  cases b.resolver.classify value none with
  | instruction producer => exact supplied_dataEdge h hw hk producer
  | parameter name => exact supplied_parameterEdge h name
  | _ => exact .refl h

/-- The edge of an operand brings what the operand resolves to. -/
theorem supplied_operandEdge (h : s.graph.Tracks tracked) (hw : s.graph.HasWalked walked i.id)
    (operand : Operand × String) :
    Graph.Supplied tracked n (b.fromOperand walked i operand.1).toList s.graph
      (b.operandEdge i n s operand).graph := by
  obtain ⟨operand, text⟩ := operand
  cases operand with
  | instruction producer => exact supplied_dataEdge h hw rfl producer
  | parameter name => exact supplied_parameterEdge h name
  | global name => exact supplied_globalEdge h name
  | _ => exact .refl h

/-- Operand by operand, then the globals of the usage, then the parameter that is called. -/
theorem supplied_operandFlow (h : s.graph.Tracks tracked) (hw : s.graph.HasWalked walked i.id) :
    Graph.Supplied tracked n (b.takesOperands walked i) s.graph (b.operandFlow s i n).graph := by
  have hoperands := Graph.Supplied.foldl (n := n)
    (fun _ o hs hw => supplied_operandEdge (b := b) (i := i) hs hw o)
    ((b.operandsOf i).zip i.operands) h hw
  have hglobals := hoperands.trans (Graph.Supplied.foldl (n := n)
    (fun _ key hs _ => supplied_globalEdge (b := b) hs (b.symbols.canonicalGlobal key))
    i.usage.globals hoperands.tracks (hoperands.hasWalked hw))
  -- the operands come with their texts, which do not matter here
  have hfst : ((b.operandsOf i).zip i.operands).flatMap
      (fun o => (b.fromOperand walked i o.1).toList) =
        (b.operandsOf i).filterMap (b.fromOperand walked i) := by
    have hlen : (b.operandsOf i).length ≤ i.operands.length := by simp [operandsOf]
    rw [← List.flatMap_map Prod.fst fun o => (b.fromOperand walked i o).toList,
      List.map_fst_zip hlen, List.filterMap_eq_flatMap_toList]
  rw [hfst, ← List.filterMap_eq_flatMap_toList] at hglobals
  rw [operandFlow, takesOperands]
  cases hcallee : i.calleeName? with
  | none => simpa [callsParam, hcallee] using hglobals
  | some callee =>
    by_cases hparam : b.callsParam i = true
    · simpa [hparam] using hglobals.trans (supplied_parameterEdge hglobals.tracks callee)
    · simpa [hparam] using hglobals

/-- What a terminator takes has flowed into it. -/
theorem supplied_valueFlow (h : s.graph.Tracks tracked) (hw : s.graph.HasWalked walked i.id)
    (ht : i.isTerminator = true) :
    Graph.Supplied tracked n (b.takes walked i) s.graph (b.valueFlow s i n).graph := by
  rw [takes, valueFlow]
  rw [Instruction.isTerminator] at ht
  cases hop : i.opcode with
  | br | switch =>
    cases i.condition with
    | none => exact .refl h
    | some condition =>
      simpa [List.filterMap_eq_flatMap_toList] using
        supplied_valueEdge h hw b.conditionKind_carriesValue condition
  | ret =>
    cases i.returnValue with
    | none => exact .refl h
    | some value => simpa [List.filterMap_eq_flatMap_toList] using supplied_valueEdge h hw rfl value
  | unreachable => exact .refl h
  | invoke => exact supplied_operandFlow h hw
  | call | other => simp [hop, Opcode.isTerminator] at ht

end Builder

end InstrGraph

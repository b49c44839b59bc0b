import InstrGraph.Proofs.Graph.Run
import Mathlib.Logic.Relation

/-!
# What the edges of a graph connect

Every edge but that of the function is added by the visit of an instruction, and what a visit adds
is known. So it is known between which nodes an edge of each kind may lead: `EdgesTyped`.

Control may lead anywhere, other edges may not: from the function, the parameters and the globals
to the blocks, and on to the instructions, among which they lead to nodes that were made later.
`rank_lt_of_mem_edges` says so with one number for each node. Hence there is no cycle without
control.
-/

namespace InstrGraph

/-- The edge is that of the function. -/
def Edge.isEntry (e : Edge) : Bool := e.kind == .entry

/-- An edge is of one of four sorts. -/
theorem Edge.sort_cases (e : Edge) :
    e.kind = .entry ∨ e.isSequential = true ∨ e.carriesValue = true ∨ e.isControl = true := by
  cases hk : e.kind <;>
    simp [Edge.isSequential, Edge.carriesValue, Edge.isControl, EdgeKind.carriesValue, hk]

namespace Resolver

variable {r : Resolver} {token : String} {o : Operand}

/-- A token that is known is an instruction, a parameter or a global. -/
theorem known?_cases (h : r.known? token = some o) : (∃ id, o = .instruction id) ∨
    o = .parameter token ∧ token ∈ r.params ∨ o = .global token ∧ token ∈ r.globals := by
  rw [known?] at h
  split at h
  · exact Or.inl ⟨_, (Option.some.inj h).symm⟩
  · split at h
    · rename_i hparam
      exact Or.inr (Or.inl ⟨(Option.some.inj h).symm, by simpa [isParam] using hparam⟩)
    · split at h
      · rename_i hglobal
        exact Or.inr (Or.inr ⟨(Option.some.inj h).symm, by simpa using hglobal⟩)
      · simp at h

/-- An operand stands for a parameter or global only if its name is one. -/
theorem mem_of_classify (r : Resolver) (operand : String) (callee : Option String) :
    (∀ name, r.classify operand callee = .parameter name → name ∈ r.params) ∧
      ∀ name, r.classify operand callee = .global name → name ∈ r.globals := by
  rw [classify]
  dsimp only
  split
  · simp
  · split
    · simp
    · split
      · rename_i hparam
        refine ⟨fun name hname => ?_, by simp⟩
        obtain rfl := Operand.parameter.inj hname
        simpa [isParam] using hparam
      · split
        · simp
        · split
          · rename_i known hknown
            obtain ⟨token, -, htoken⟩ := List.exists_of_findSome?_eq_some hknown
            rcases known?_cases htoken with ⟨id, rfl⟩ | ⟨rfl, hmem⟩ | ⟨rfl, hmem⟩
            · simp
            · exact ⟨fun name hname => Operand.parameter.inj hname ▸ hmem, by simp⟩
            · exact ⟨by simp, fun name hname => Operand.global.inj hname ▸ hmem⟩
          · rw [classifyRest]
            split
            · simp
            · split
              · simp
              · split
                · simp
                · split <;> simp

end Resolver

namespace Builder

variable {b : Builder} {g : Graph} {ds : List Diagnostic} {pre post : List Event} {block : Block}
  {i : Instruction} {s s' : BuildState} {new : List Edge} {e : Edge} {x : Supply}
  {walked : List UInt32}

/-! ### What is taken -/

/-- A value that is taken from an instruction. -/
structure FromInstruction (b : Builder) (walked : List UInt32) (i : Instruction) (x : Supply)
    (producer : UInt32) : Prop where
  key : x.key = .instruction producer
  lt : producer < i.id
  mem : producer ∈ walked
  kind : x.kind = .data ∨ x.kind = .condition ∧ (i.opcode = .br ∨ i.opcode = .switch) ∧
    b.config.conditionEdge = .condition

/-- What may be taken: the value of an instruction that is walked, a parameter of the function, or a
global that becomes a node, one of the metadata or one that the instruction uses. -/
def Taken (b : Builder) (walked : List UInt32) (i : Instruction) (x : Supply) : Prop :=
  (∃ producer, FromInstruction b walked i x producer) ∨
    (∃ name, x = ⟨.parameter name, .parameter⟩ ∧ name ∈ b.resolver.params) ∨
    ∃ name, x = ⟨.global name, .global⟩ ∧ b.materializes name = true ∧
      (name ∈ b.resolver.globals ∨ name ∈ i.usage.globals.map b.symbols.canonicalGlobal)

/-- The value of an instruction is taken from one that has been walked. -/
theorem taken_fromInstruction {kind : EdgeKind} {producer : UInt32}
    (hx : fromInstruction walked i kind producer = some x)
    (hk : kind = .data ∨ kind = .condition ∧ (i.opcode = .br ∨ i.opcode = .switch) ∧
      b.config.conditionEdge = .condition) : b.Taken walked i x := by
  rw [fromInstruction] at hx
  split_ifs at hx with hp
  obtain rfl := Option.some.inj hx
  exact Or.inl ⟨producer, rfl, hp.1, hp.2, hk⟩

/-- A global is taken if it becomes a node. -/
theorem taken_fromGlobal {name : String} (hx : b.fromGlobal name = some x)
    (hn : name ∈ b.resolver.globals ∨ name ∈ i.usage.globals.map b.symbols.canonicalGlobal) :
    b.Taken walked i x := by
  rw [fromGlobal] at hx
  split_ifs at hx with hm
  obtain rfl := Option.some.inj hx
  exact Or.inr (Or.inr ⟨name, rfl, hm, hn⟩)

/-- What a value resolves to is taken. -/
theorem taken_fromValue {kind : EdgeKind} {value : String}
    (hx : b.fromValue walked i kind value = some x)
    (hk : kind = .data ∨ kind = .condition ∧ (i.opcode = .br ∨ i.opcode = .switch) ∧
      b.config.conditionEdge = .condition) : b.Taken walked i x := by
  rw [fromValue] at hx
  cases hc : b.resolver.classify value none with
  | instruction producer => exact taken_fromInstruction (by simpa [hc] using hx) hk
  | parameter name =>
    refine Or.inr (Or.inl ⟨name, by simpa [hc, fromParameter] using hx.symm, ?_⟩)
    exact (b.resolver.mem_of_classify _ _).1 name hc
  | _ => simp [hc] at hx

/-- What an instruction takes for its operands is taken. -/
theorem taken_of_mem_takesOperands (hx : x ∈ b.takesOperands walked i) : b.Taken walked i x := by
  simp only [takesOperands, List.mem_append, List.mem_filterMap] at hx
  rcases hx with (⟨operand, hmem, hx⟩ | ⟨key, hmem, hx⟩) | hx
  · obtain ⟨raw, -, hraw⟩ := List.mem_map.mp hmem
    cases operand with
    | instruction producer => exact taken_fromInstruction hx (Or.inl rfl)
    | parameter name =>
      refine Or.inr (Or.inl ⟨name, by simpa [fromOperand, fromParameter] using hx.symm, ?_⟩)
      exact (b.resolver.mem_of_classify _ _).1 name hraw
    | global name =>
      exact taken_fromGlobal hx (Or.inl ((b.resolver.mem_of_classify _ _).2 name hraw))
    | _ => simp [fromOperand] at hx
  · exact taken_fromGlobal hx (Or.inr (List.mem_map_of_mem hmem))
  · split_ifs at hx with hcalls
    · obtain ⟨name, hname, rfl⟩ := List.mem_map.mp hx
      refine Or.inr (Or.inl ⟨name, rfl, ?_⟩)
      rw [Option.mem_toList] at hname
      simpa [callsParam, hname, Resolver.isParam] using hcalls
    · simp at hx

/-- The edge of a condition is one of data unless the option says otherwise. -/
theorem conditionKind_cases (b : Builder) : b.conditionKind = .data ∨
    b.conditionKind = .condition ∧ b.config.conditionEdge = .condition := by
  rw [conditionKind]
  cases b.config.conditionEdge <;> simp

/-- Everything that an instruction takes comes from where it can be taken. -/
theorem taken_of_mem_takes (hx : x ∈ b.takes walked i) : b.Taken walked i x := by
  rw [takes] at hx
  cases hop : i.opcode with
  | br | switch =>
    simp only [hop] at hx
    obtain ⟨value, -, hx⟩ := List.mem_filterMap.mp hx
    refine taken_fromValue hx (b.conditionKind_cases.imp_right fun hk => ⟨hk.1, ?_, hk.2⟩)
    simp [hop]
  | ret =>
    simp only [hop] at hx
    obtain ⟨value, -, hx⟩ := List.mem_filterMap.mp hx
    exact taken_fromValue hx (Or.inl rfl)
  | unreachable => simp [hop] at hx
  | invoke | call | other =>
    simp only [hop] at hx
    exact taken_of_mem_takesOperands hx

/-! ### Edges of one visit -/

namespace VisitOf

/-- An edge that a visit adds for a value comes from what the instruction takes. -/
theorem exists_supply (h : VisitOf b g pre block i s s' new) (he : e ∈ new)
    (hv : e.carriesValue = true) :
    ∃ x ∈ b.takes (visited pre) i, g.keys[e.source]? = some x.key ∧ e.kind = x.kind := by
  have hvalues := Graph.map_supplyOf?_of_isPrefix h.after h.added.values
  have hmem : g.supplyOf? e ∈ (b.takes s.graph.walked i).map some :=
    hvalues ▸ List.mem_map_of_mem (List.mem_filter.mpr ⟨he, hv⟩)
  obtain ⟨x, hx, hxe⟩ := List.mem_map.mp hmem
  rw [h.walked] at hx
  exact ⟨x, hx, Graph.supplyOf?_eq_some.mp hxe.symm⟩

/-- An edge of control that a visit adds leads to a target of the instruction. -/
theorem exists_target (h : VisitOf b g pre block i s s' new) (he : e ∈ new)
    (hc : e.isControl = true) :
    ∃ t ∈ i.successors, g.keys[e.target]? = some (targetKey t) := by
  have hmem : s'.graph.keyAt? e.target ∈ i.successors.map fun t => some (targetKey t) :=
    h.added.control ▸ List.mem_map_of_mem (List.mem_filter.mpr ⟨he, hc⟩)
  obtain ⟨t, ht, hkey⟩ := List.mem_map.mp hmem
  exact ⟨t, ht, Graph.getElem?_keys_of_isPrefix h.after (Graph.keyAt?_eq .. ▸ hkey.symm)⟩

/-- A sequential edge leaves a node that waits for a terminator, or the block of an instruction
that is none. -/
theorem exists_waiting (h : VisitOf b g pre block i s s' new) (he : e ∈ new)
    (hs : e.isSequential = true) :
    ∃ key, s.graph.keys[e.source]? = some key ∧ (key ∈ waiting pre ∨ key = block.key) := by
  have hmem : e ∈ new.filter Edge.isSequential := List.mem_filter.mpr ⟨he, hs⟩
  rw [h.added.sequential] at hmem
  obtain ⟨m, hm, rfl⟩ := List.mem_map.mp hmem
  rw [sequentialSources] at hm
  split_ifs at hm
  · obtain ⟨⟨key, hkey, hmk⟩, -⟩ := Graph.mem_pending.mp hm
    exact ⟨key, hmk, Or.inl hkey⟩
  · simp at hm
  · obtain rfl := List.mem_singleton.mp hm
    exact ⟨block.key, Graph.getElem?_entryOf h.before h.entry, Or.inr rfl⟩

/-- What enters the instruction enters its node, control leaves it. -/
theorem getElem?_adder (h : VisitOf b g pre block i s s' new) (he : e ∈ new) :
    g.keys[e.adder]? = some i.key := by rw [h.added.adder e he, h.getElem?_node]

/-- The nodes that were there before the visit come before that of the instruction. -/
theorem lt_node (h : VisitOf b g pre block i s s' new) {key : NodeKey} {m : Nat}
    (hkey : key ∈ s.graph.keys) (hm : g.keys[m]? = some key) : m < s.graph.slots.length := by
  obtain ⟨m', hlt, hm'⟩ := List.getElem_of_mem hkey
  have hmg : g.keys[m']? = some key :=
    Graph.getElem?_keys_of_isPrefix h.keys_isPrefix (List.getElem?_eq_some_iff.mpr ⟨hlt, hm'⟩)
  obtain rfl : m = m' := (List.getElem?_inj (List.getElem?_eq_some_iff.mp hm).1 h.nodup).mp
    (hm.trans hmg.symm)
  simpa using hlt

end VisitOf

/-! ### Edges of the finished graph -/

/-- What waits for a terminator is a block or an instruction that is none. -/
theorem waiting_cases {events : List Event} {key : NodeKey} (h : key ∈ waiting events) :
    (∃ event ∈ events, key = event.block.key) ∨
      ∃ i ∈ visits events, i.isTerminator = false ∧ key = i.key := by
  obtain ⟨event, hmem, hkey⟩ := List.mem_filterMap.mp h
  cases event with
  | enter block => exact Or.inl ⟨_, hmem, (Option.some.inj hkey).symm⟩
  | visit block i =>
    rw [Event.waiting?] at hkey
    split_ifs at hkey with ht
    exact Or.inr ⟨i, List.mem_filterMap.mpr ⟨_, hmem, rfl⟩, by simpa using ht,
      (Option.some.inj hkey).symm⟩

/-- Only blocks and instructions wait for a terminator. -/
theorem isOuter_of_mem_waiting {events : List Event} {key : NodeKey} (h : key ∈ waiting events) :
    key.isOuter = false := by
  rcases waiting_cases h with ⟨event, -, rfl⟩ | ⟨i, -, -, rfl⟩ <;> rfl

/-- The first nodes are the function and its blocks, in order. -/
theorem keys_prefix_of_build (h : b.build = .ok (g, ds)) :
    .function :: b.function.blocks.map Block.key <+: g.keys := by
  obtain ⟨g₀, hready, hadv⟩ := advances_of_build h
  exact hready.keys ▸ hadv.keys

/-- The function is the first node of a finished graph. -/
theorem getElem?_function (h : b.build = .ok (g, ds)) : g.keys[0]? = some .function := by
  obtain ⟨more, hmore⟩ := keys_prefix_of_build h
  simp [← hmore]

/-- All instructions of the function have been walked in a finished graph, in order. -/
theorem walked_of_build (h : b.build = .ok (g, ds)) :
    g.walked = b.function.instructions.map (·.id) := by
  obtain ⟨g₀, hready, hadv⟩ := advances_of_build h
  rw [hadv.walked, hready.walked, List.nil_append, visited, visits_schedule]

/-- No node occurs twice in a finished graph. -/
theorem nodup_of_build (h : b.build = .ok (g, ds)) : g.keys.Nodup := by
  obtain ⟨g₀, -, hadv⟩ := advances_of_build h
  exact hadv.tracks.nodup

/-- No two instructions of a function that has a graph share an id. -/
theorem nodup_ids_of_build (h : b.build = .ok (g, ds)) :
    (b.function.instructions.map (·.id)).Nodup := by
  rw [← walked_of_build h, Graph.walked]
  refine (nodup_of_build h).filterMap fun k k' id hk hk' => ?_
  rw [NodeKey.instructionId?_eq_some.mp hk, NodeKey.instructionId?_eq_some.mp hk']

/-- The edge of the function is the only one of its kind. -/
theorem filter_isEntry_of_build (h : b.build = .ok (g, ds)) :
    g.edges.filter Edge.isEntry = entryEdges b.function.blocks := by
  obtain ⟨g₀, hready, hadv⟩ := advances_of_build h
  obtain ⟨added, hadded, hP⟩ := hadv.edges
  have hentry : (entryEdges b.function.blocks).filter Edge.isEntry =
      entryEdges b.function.blocks := by
    cases b.function.blocks <;> rfl
  have hnone : added.filter Edge.isEntry = [] :=
    List.filter_eq_nil_iff.mpr fun e he => by simpa [Edge.isEntry] using (hP e he).2.1
  rw [hadded, List.filter_append, hready.edges, hentry, hnone, List.append_nil]

/-- The only entry edge leads from the function to its first block. -/
theorem eq_of_kind_entry (h : b.build = .ok (g, ds)) (he : e ∈ g.edges) (hk : e.kind = .entry) :
    ∃ block rest, b.function.blocks = block :: rest ∧ e = ⟨0, 1, .entry⟩ := by
  have hmem : e ∈ g.edges.filter Edge.isEntry :=
    List.mem_filter.mpr ⟨he, by simp [Edge.isEntry, hk]⟩
  rw [filter_isEntry_of_build h] at hmem
  cases hb : b.function.blocks with
  | nil => simp [hb, entryEdges] at hmem
  | cons block rest => exact ⟨block, rest, rfl, by simpa [hb, entryEdges] using hmem⟩

/-- A node for something outside of the blocks is made only where an instruction takes it. -/
theorem exists_takes_of_isOuter (h : b.build = .ok (g, ds)) {k : NodeKey} (hk : k ∈ g.keys)
    (ho : k.isOuter = true) :
    ∃ pre block i post, schedule b.function.blocks = pre ++ .visit block i :: post ∧
      ∃ x ∈ b.takes (visited pre) i, x.key = k := by
  obtain ⟨g₀, hready, hadv⟩ := advances_of_build h
  rcases hadv.outer k hk with hk | ⟨i, -, rfl⟩ | ⟨-, e, he, hek⟩
  · rw [hready.keys] at hk
    rcases List.mem_cons.mp hk with rfl | hk
    · simp [NodeKey.isOuter] at ho
    · obtain ⟨block, -, rfl⟩ := List.mem_map.mp hk
      simp [NodeKey.isOuter, Block.key] at ho
  · simp [NodeKey.isOuter, Instruction.key] at ho
  · have hkind : e.kind ≠ .entry := by
      intro hkind
      obtain ⟨-, -, -, rfl⟩ := eq_of_kind_entry h he hkind
      rw [getElem?_function h] at hek
      simp [← Option.some.inj hek, NodeKey.isOuter] at ho
    obtain ⟨pre, block, i, post, s, s', new, hsched, hvisit, hnew⟩ :=
      exists_visit_of_mem_edges h he hkind
    rcases e.sort_cases with hs | hs | hs | hs
    · exact absurd hs hkind
    · obtain ⟨key, hkey, hwait⟩ := hvisit.exists_waiting hnew hs
      have hkey := Graph.getElem?_keys_of_isPrefix hvisit.keys_isPrefix hkey
      obtain rfl : key = k := Option.some.inj (hkey.symm.trans hek)
      rcases hwait with hwait | rfl
      · simp [isOuter_of_mem_waiting hwait] at ho
      · simp [NodeKey.isOuter, Block.key] at ho
    · obtain ⟨x, hx, hxk, -⟩ := hvisit.exists_supply hnew hs
      exact ⟨pre, block, i, post, hsched, x, hx, Option.some.inj (hxk.symm.trans hek)⟩
    · have hnode := hvisit.getElem?_adder hnew
      rw [Edge.adder_eq_source hs, hek] at hnode
      obtain rfl := Option.some.inj hnode
      simp [NodeKey.isOuter, Instruction.key] at ho

end Builder

/-! ### Typing -/

namespace Graph

/-- The edge leads from one node to another. -/
def Connects (g : Graph) (e : Edge) (k k' : NodeKey) : Prop :=
  g.keyAt? e.source = some k ∧ g.keyAt? e.target = some k'

/-- An edge connects the nodes of two keys if its ends are at their indices. -/
theorem connects_iff {g : Graph} {e : Edge} {k k' : NodeKey} :
    g.Connects e k k' ↔ g.keys[e.source]? = some k ∧ g.keys[e.target]? = some k' := by
  rw [Connects, keyAt?_eq, keyAt?_eq]

end Graph

/-- One instruction of the function is walked before another. -/
def Function.WalksBefore (f : Function) (i j : Instruction) : Prop :=
  ∃ pre mid post, f.instructions = pre ++ i :: (mid ++ j :: post)

namespace Builder

variable {b : Builder} {g : Graph} {ds : List Diagnostic} {e : Edge}

/-- Between which nodes the edges of each kind lead. -/
structure EdgesTyped (b : Builder) (g : Graph) : Prop where
  /-- One edge leads from the function to its first block, if it has blocks. -/
  entry : (g.edges.filter Edge.isEntry).map (fun e => (g.keyAt? e.source, g.keyAt? e.target)) =
    b.function.blocks.head?.toList.map fun block => (some .function, some block.key)
  sequential : ∀ e ∈ g.edges, e.kind = .sequential → ∃ j ∈ b.function.instructions,
    (∃ block ∈ b.function.blocks, g.Connects e block.key j.key) ∨
      ∃ i ∈ b.function.instructions, i.isTerminator = false ∧ g.Connects e i.key j.key
  /-- What flows out of a terminator is its value or control. -/
  terminator : ∀ e ∈ g.edges, ∀ i ∈ b.function.instructions, i.isTerminator = true →
    g.keyAt? e.source = some i.key → e.kind ≠ .sequential
  data : ∀ e ∈ g.edges, e.kind = .data → ∃ i j, b.function.WalksBefore i j ∧ i.id < j.id ∧
    g.Connects e i.key j.key
  condition : ∀ e ∈ g.edges, e.kind = .condition → b.config.conditionEdge = .condition ∧
    ∃ i j, b.function.WalksBefore i j ∧ i.id < j.id ∧ (j.opcode = .br ∨ j.opcode = .switch) ∧
      g.Connects e i.key j.key
  control : ∀ e ∈ g.edges, e.kind = .control →
    ∃ i ∈ b.function.instructions, ∃ block ∈ b.function.blocks,
      (i.opcode = .br ∨ i.opcode = .switch ∨ i.opcode = .invoke) ∧ g.Connects e i.key block.key
  parameter : ∀ e ∈ g.edges, e.kind = .parameter → ∃ name, ∃ i ∈ b.function.instructions,
    g.Connects e (.parameter name) i.key
  global : ∀ e ∈ g.edges, e.kind = .global → ∃ name, ∃ i ∈ b.function.instructions,
    g.Connects e (.global name) i.key
  /-- Strings and aggregates have no nodes. -/
  globalType : ∀ name, .global name ∈ g.keys → ∃ info,
    b.metadata.global? (b.symbols.globalKey name) = some info ∧
      info.globalType ≠ .string ∧ info.globalType ≠ .struct
  /-- Nothing enters the function, a parameter or a global. -/
  target : ∀ e ∈ g.edges, ∀ k, g.keyAt? e.target = some k → k ≠ .function ∧ k.isOuter = false

/-- An edge that carries a value: from an instruction walked before, from a parameter, or from a
global. -/
theorem value_cases (h : b.build = .ok (g, ds)) (he : e ∈ g.edges) (hv : e.carriesValue = true) :
    (∃ i j, b.function.WalksBefore i j ∧ i.id < j.id ∧ g.Connects e i.key j.key ∧
      (e.kind = .data ∨ e.kind = .condition ∧ (j.opcode = .br ∨ j.opcode = .switch) ∧
        b.config.conditionEdge = .condition)) ∨
    ∃ j ∈ b.function.instructions,
      (e.kind = .parameter ∧ ∃ name, g.Connects e (.parameter name) j.key) ∨
      (e.kind = .global ∧ ∃ name, g.Connects e (.global name) j.key) := by
  have hkind : e.kind ≠ .entry := fun hk => by
    simp [Edge.carriesValue, EdgeKind.carriesValue, hk] at hv
  obtain ⟨pre, block, j, post, s, s', new, hsched, hvisit, hnew⟩ :=
    exists_visit_of_mem_edges h he hkind
  have hsplit := instructions_of_split hsched
  have hmem : j ∈ b.function.instructions := by simp [hsplit]
  obtain ⟨x, hx, hsource, hxkind⟩ := hvisit.exists_supply hnew hv
  have htarget := hvisit.getElem?_adder hnew
  rw [Edge.adder_eq_target (Edge.sort_of_carriesValue hv).2] at htarget
  have hconnects : g.Connects e x.key j.key := Graph.connects_iff.mpr ⟨hsource, htarget⟩
  rcases taken_of_mem_takes hx with ⟨producer, htaken⟩ | ⟨name, rfl, -⟩ | ⟨name, rfl, -⟩
  · obtain ⟨i, hi, hid⟩ := List.mem_map.mp htaken.mem
    obtain ⟨before, mid, hbefore⟩ := List.append_of_mem hi
    refine Or.inl ⟨i, j, ⟨before, mid, visits post, ?_⟩, hid ▸ htaken.lt, ?_, hxkind ▸ htaken.kind⟩
    · simp [hsplit, hbefore]
    · rw [Instruction.key, hid, ← htaken.key]
      exact hconnects
  · exact Or.inr ⟨j, hmem, Or.inl ⟨hxkind, name, hconnects⟩⟩
  · exact Or.inr ⟨j, hmem, Or.inr ⟨hxkind, name, hconnects⟩⟩

/-- A sequential edge: from a block or from an instruction that is no terminator. -/
theorem sequential_cases (h : b.build = .ok (g, ds)) (he : e ∈ g.edges)
    (hs : e.isSequential = true) : ∃ j ∈ b.function.instructions,
      (∃ block ∈ b.function.blocks, g.Connects e block.key j.key) ∨
        ∃ i ∈ b.function.instructions, i.isTerminator = false ∧ g.Connects e i.key j.key := by
  have hkind : e.kind ≠ .entry := fun hk => by simp [Edge.isSequential, hk] at hs
  obtain ⟨pre, block, j, post, s, s', new, hsched, hvisit, hnew⟩ :=
    exists_visit_of_mem_edges h he hkind
  have hsplit := instructions_of_split hsched
  have htarget := hvisit.getElem?_adder hnew
  rw [Edge.adder_eq_target (Edge.sort_of_isSequential hs).2] at htarget
  obtain ⟨key, hkey, hwait⟩ := hvisit.exists_waiting hnew hs
  have hconnects : g.Connects e key j.key :=
    Graph.connects_iff.mpr ⟨Graph.getElem?_keys_of_isPrefix hvisit.keys_isPrefix hkey, htarget⟩
  have hblock (event : Event) (hmem : event ∈ schedule b.function.blocks) :
      event.block ∈ b.function.blocks := block_mem_of_mem_schedule hmem
  refine ⟨j, by simp [hsplit], ?_⟩
  rcases hwait with hwait | rfl
  · rcases waiting_cases hwait with ⟨event, hmem, rfl⟩ | ⟨i, hi, ht, rfl⟩
    · exact Or.inl ⟨event.block, hblock _ (by simp [hsched, hmem]), hconnects⟩
    · exact Or.inr ⟨i, by simp [hsplit, hi], ht, hconnects⟩
  · exact Or.inl ⟨block, hblock (.visit block j) (by simp [hsched]), hconnects⟩

/-- An edge of control leads from an instruction to one of its targets. -/
theorem control_cases (h : b.build = .ok (g, ds)) (he : e ∈ g.edges) (hc : e.isControl = true) :
    ∃ i ∈ b.function.instructions, ∃ t ∈ i.successors, g.Connects e i.key (targetKey t) := by
  have hkind : e.kind ≠ .entry := fun hk => by simp [Edge.isControl, hk] at hc
  obtain ⟨pre, block, i, post, s, s', new, hsched, hvisit, hnew⟩ :=
    exists_visit_of_mem_edges h he hkind
  have hsource := hvisit.getElem?_adder hnew
  rw [Edge.adder_eq_source hc] at hsource
  obtain ⟨t, ht, htarget⟩ := hvisit.exists_target hnew hc
  have hconnects := Graph.connects_iff.mpr ⟨hsource, htarget⟩
  exact ⟨i, by simp [instructions_of_split hsched], t, ht, hconnects⟩

/-- Only branches, switches and invocations have targets. -/
theorem opcode_of_mem_successors {i : Instruction} {t : String} (h : t ∈ i.successors) :
    i.opcode = .br ∨ i.opcode = .switch ∨ i.opcode = .invoke := by
  rw [Instruction.successors] at h
  cases hop : i.opcode <;> simp_all

/-- The edge of the function and control lead to blocks, all other edges to instructions. -/
theorem target_cases (h : b.build = .ok (g, ds)) (he : e ∈ g.edges) :
    ((e.kind = .entry ∨ e.isControl = true) ∧ ∃ label, g.keyAt? e.target = some (.block label)) ∨
      ∃ id, g.keyAt? e.target = some (.instruction id) := by
  rcases e.sort_cases with hk | hs | hv | hc
  · obtain ⟨block, rest, hb, rfl⟩ := eq_of_kind_entry h he hk
    obtain ⟨more, hmore⟩ := keys_prefix_of_build h
    refine Or.inl ⟨Or.inl rfl, Token.normalizeLabel block.label, ?_⟩
    simp [Graph.keyAt?_eq, ← hmore, hb, Block.key]
  · obtain ⟨j, -, ⟨block, -, hc⟩ | ⟨i, -, -, hc⟩⟩ := sequential_cases h he hs
    · exact Or.inr ⟨j.id, hc.2⟩
    · exact Or.inr ⟨j.id, hc.2⟩
  · rcases value_cases h he hv with ⟨i, j, -, -, hc, -⟩ | ⟨j, -, ⟨-, name, hc⟩ | ⟨-, name, hc⟩⟩
    · exact Or.inr ⟨j.id, hc.2⟩
    · exact Or.inr ⟨j.id, hc.2⟩
    · exact Or.inr ⟨j.id, hc.2⟩
  · obtain ⟨i, -, t, -, hc⟩ := control_cases h he hc
    exact Or.inl ⟨Or.inr ‹_›, _, hc.2⟩

/-- Every edge of a finished graph connects nodes that its kind is for. -/
theorem edgesTyped_of_build (h : b.build = .ok (g, ds)) : EdgesTyped b g where
  entry := by
    rw [filter_isEntry_of_build h]
    obtain ⟨more, hmore⟩ := keys_prefix_of_build h
    cases hb : b.function.blocks with
    | nil => rfl
    | cons block rest =>
      rw [hb] at hmore
      simp [entryEdges, Graph.keyAt?_eq, ← hmore]
  sequential e he hk := sequential_cases h he (by simp [Edge.isSequential, hk])
  terminator e he i hi ht hkey hk := by
    obtain ⟨j, -, ⟨block, -, hc⟩ | ⟨i', hi', ht', hc⟩⟩ :=
      sequential_cases h he (by simp [Edge.isSequential, hk])
    · simpa [Block.key, Instruction.key] using hkey.symm.trans hc.1
    · have hid : i.id = i'.id := by simpa [Instruction.key] using hkey.symm.trans hc.1
      obtain rfl := List.inj_on_of_nodup_map (nodup_ids_of_build h) hi hi' hid
      simp [ht] at ht'
  data e he hk := by
    rcases value_cases h he (by simp [Edge.carriesValue, EdgeKind.carriesValue, hk]) with
      ⟨i, j, hw, hlt, hc, -⟩ | ⟨j, -, ⟨hk', -⟩ | ⟨hk', -⟩⟩
    · exact ⟨i, j, hw, hlt, hc⟩
    · simp [hk] at hk'
    · simp [hk] at hk'
  condition e he hk := by
    rcases value_cases h he (by simp [Edge.carriesValue, EdgeKind.carriesValue, hk]) with
      ⟨i, j, hw, hlt, hc, hk' | ⟨-, hop, hconfig⟩⟩ | ⟨j, -, ⟨hk', -⟩ | ⟨hk', -⟩⟩
    · simp [hk] at hk'
    · exact ⟨hconfig, i, j, hw, hlt, hop, hc⟩
    · simp [hk] at hk'
    · simp [hk] at hk'
  control e he hk := by
    obtain ⟨i, hi, t, ht, hc⟩ := control_cases h he (by simp [Edge.isControl, hk])
    have hmem := List.mem_of_getElem? (Graph.connects_iff.mp hc).2
    obtain ⟨g₀, hready, hadv⟩ := advances_of_build h
    obtain ⟨block, hblock, hkey⟩ := (hready.block_mem_iff hadv).mp hmem
    refine ⟨i, hi, block, hblock, opcode_of_mem_successors ht, ?_⟩
    rwa [hkey]
  parameter e he hk := by
    rcases value_cases h he (by simp [Edge.carriesValue, EdgeKind.carriesValue, hk]) with
      ⟨i, j, -, -, -, hk' | ⟨hk', -⟩⟩ | ⟨j, hj, ⟨-, name, hc⟩ | ⟨hk', -⟩⟩
    · simp [hk] at hk'
    · simp [hk] at hk'
    · exact ⟨name, j, hj, hc⟩
    · simp [hk] at hk'
  global e he hk := by
    rcases value_cases h he (by simp [Edge.carriesValue, EdgeKind.carriesValue, hk]) with
      ⟨i, j, -, -, -, hk' | ⟨hk', -⟩⟩ | ⟨j, hj, ⟨hk', -⟩ | ⟨-, name, hc⟩⟩
    · simp [hk] at hk'
    · simp [hk] at hk'
    · simp [hk] at hk'
    · exact ⟨name, j, hj, hc⟩
  globalType name hk := by
    obtain ⟨pre, block, i, post, -, x, hx, hxk⟩ := exists_takes_of_isOuter h hk rfl
    rcases taken_of_mem_takes hx with ⟨producer, htaken⟩ | ⟨name', rfl, -⟩ | ⟨name', rfl, hm, -⟩
    · simp [htaken.key] at hxk
    · simp at hxk
    · obtain rfl : name' = name := by simpa using hxk
      obtain ⟨info, hinfo, hm⟩ := (Option.any_eq_true _ _).mp hm
      refine ⟨info, hinfo, ?_, ?_⟩ <;> rintro ht <;> simp [ht, GlobalType.isMaterialized] at hm
  target e he k hk := by
    rcases target_cases h he with ⟨-, label, hkey⟩ | ⟨id, hkey⟩
    · obtain rfl := Option.some.inj (hkey.symm.trans hk)
      exact ⟨by simp, rfl⟩
    · obtain rfl := Option.some.inj (hkey.symm.trans hk)
      exact ⟨by simp, rfl⟩

end Builder

/-! ### Acyclicity -/

namespace Graph

/-- There is an edge from one node to the other that is no control. -/
def FlowsTo (g : Graph) (m n : Nat) : Prop :=
  ∃ e ∈ g.edges, e.kind ≠ .control ∧ e.source = m ∧ e.target = n

/-- Instructions come after blocks, and these after all other nodes. Among instructions the later
node comes later. -/
def rank (g : Graph) (n : Nat) : Nat :=
  match g.keyAt? n with
  | some (.instruction _) => n + 2
  | some (.block _) => 1
  | some .function | some (.parameter _) | some (.global _) | none => 0

end Graph

namespace Builder

variable {b : Builder} {g : Graph} {ds : List Diagnostic} {e : Edge}

/-- Between instructions everything but control leads to a node that was made later. -/
theorem source_lt_target (h : b.build = .ok (g, ds)) (he : e ∈ g.edges) (hc : e.isControl = false)
    {id : UInt32} (hsource : g.keys[e.source]? = some (.instruction id)) : e.source < e.target := by
  have hkind : e.kind ≠ .entry := by
    intro hk
    obtain ⟨-, -, -, rfl⟩ := eq_of_kind_entry h he hk
    simp [getElem?_function h] at hsource
  obtain ⟨pre, block, j, post, s, s', new, -, hvisit, hnew⟩ := exists_visit_of_mem_edges h he hkind
  rw [← Edge.adder_eq_target hc, hvisit.added.adder e hnew]
  refine hvisit.lt_node (?_ : .instruction id ∈ s.graph.keys) hsource
  rcases e.sort_cases with hs | hs | hs | hs
  · exact absurd hs hkind
  · obtain ⟨key, hkey, -⟩ := hvisit.exists_waiting hnew hs
    have hkey' := Graph.getElem?_keys_of_isPrefix hvisit.keys_isPrefix hkey
    rw [← Option.some.inj (hkey'.symm.trans hsource)]
    exact List.mem_of_getElem? hkey
  · obtain ⟨x, hx, hxk, -⟩ := hvisit.exists_supply hnew hs
    have hxid : x.key = .instruction id := Option.some.inj (hxk.symm.trans hsource)
    rcases taken_of_mem_takes hx with ⟨producer, htaken⟩ | ⟨name, rfl, -⟩ | ⟨name, rfl, -⟩
    · rw [← hxid, htaken.key, ← Graph.mem_walked, hvisit.walked]
      exact htaken.mem
    · simp at hxid
    · simp at hxid
  · simp [hs] at hc

/-- An edge that is not one of control leads to a node of a higher rank. -/
theorem rank_lt_of_mem_edges (h : b.build = .ok (g, ds)) (he : e ∈ g.edges)
    (hk : e.kind ≠ .control) : g.rank e.source < g.rank e.target := by
  have hc : e.isControl = false := by simpa [Edge.isControl] using hk
  rcases target_cases h he with ⟨hkind | hs, label, htarget⟩ | ⟨id, htarget⟩
  · -- only the edge of the function leads to a block
    obtain ⟨-, -, -, rfl⟩ := eq_of_kind_entry h he hkind
    have hzero := getElem?_function h
    rw [← Graph.keyAt?_eq] at hzero
    simp [Graph.rank, hzero, htarget]
  · simp [hs] at hc
  · have hrank : g.rank e.target = e.target + 2 := by simp [Graph.rank, htarget]
    rw [hrank, Graph.rank]
    cases hsource : g.keyAt? e.source with
    | none => simp
    | some k =>
      cases k with
      | instruction id =>
        have := source_lt_target h he hc (Graph.keyAt?_eq .. ▸ hsource)
        simpa using this
      | _ => simp

/-- Whatever flows along edges gets to nodes of higher ranks only. -/
theorem rank_lt_of_transGen (h : b.build = .ok (g, ds)) {m n : Nat}
    (hpath : Relation.TransGen g.FlowsTo m n) : g.rank m < g.rank n := by
  have hstep {m n : Nat} (hmn : g.FlowsTo m n) : g.rank m < g.rank n := by
    obtain ⟨e, he, hk, rfl, rfl⟩ := hmn
    exact rank_lt_of_mem_edges h he hk
  induction hpath with
  | single hmn => exact hstep hmn
  | tail _ hmn ih => exact ih.trans (hstep hmn)

/-- In a graph that was built, edges of each kind lead where they should, and without control no
node leads back to itself. -/
theorem edges_typed_and_acyclic_of_build (h : b.build = .ok (g, ds)) :
    EdgesTyped b g ∧ ∀ n, ¬ Relation.TransGen g.FlowsTo n n :=
  ⟨edgesTyped_of_build h, fun _ hcycle => lt_irrefl _ (rank_lt_of_transGen h hcycle)⟩

/-- A loop that compares a global, which is used twice, with a parameter. -/
def loopExample : Builder :=
  .of
    { name := "f", params := ["i32 %arg1"]
      blocks := [
        ⟨"%label_0", [{ id := 1, opcode := .br, text := "br label %label_1",
                        targets := ["label %label_1"] }]⟩,
        ⟨"%label_1", [{ id := 2, opcode := .other "load",
                        text := "%var0 = load i32, ptr @global_var_0",
                        operands := ["ptr @global_var_0"], usage := { globals := ["@g"] } },
                      { id := 3, opcode := .other "icmp",
                        text := "%var1 = icmp slt i32 %var0, %arg1",
                        operands := ["i32 %var0", "%arg1"] },
                      { id := 4, opcode := .br,
                        text := "br i1 %var1, label %label_1, label %label_2",
                        condition := some "i1 %var1",
                        targets := ["label %label_1", "label %label_2"] }]⟩,
        ⟨"%label_2", [{ id := 5, opcode := .ret, text := "ret i32 %var0",
                        returnValue := some "i32 %var0" }]⟩] }
    ((SymbolTables.empty .label true).noteGlobal "@g")
    { globals := [("@g", { globalType := .int })] } { conditionEdge := .condition } "<const>"

/-- The loop is closed by control, without which the graph has no cycle. -/
theorem edges_typed_and_acyclic_of_loopExample :
    ∃ g ds, loopExample.build = .ok (g, ds) ∧
      g.hasEdge (.instruction 4) (.block "%label_1") .control ∧
      g.hasEdge (.instruction 3) (.instruction 4) .condition ∧
      g.hasEdge (.global "@global_var_0") (.instruction 2) .global ∧
      EdgesTyped loopExample g ∧ ∀ n, ¬ Relation.TransGen g.FlowsTo n n := by
  have hedges : (loopExample.build.toOption.map fun r =>
      (r.1.hasEdge (.instruction 4) (.block "%label_1") .control,
        r.1.hasEdge (.instruction 3) (.instruction 4) .condition,
        r.1.hasEdge (.global "@global_var_0") (.instruction 2) .global)) =
          some (true, true, true) := by decide +kernel
  cases h : loopExample.build with
  | error e => simp [h, Except.toOption] at hedges
  | ok r =>
    simp only [h, Except.toOption, Option.map_some, Option.some.injEq, Prod.mk.injEq] at hedges
    obtain ⟨hcontrol, hcondition, hglobal⟩ := hedges
    exact ⟨r.1, r.2, rfl, hcontrol, hcondition, hglobal, edges_typed_and_acyclic_of_build h⟩

end Builder

end InstrGraph

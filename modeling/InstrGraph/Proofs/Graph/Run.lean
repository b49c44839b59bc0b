import InstrGraph.Proofs.Graph.Walk

/-!
# The whole walk

The walk over a function is a list of *events*: a block is entered, or an instruction of it is
visited. `Builder.run` takes a state through events one by one, and the builder does the same
(`walkBlocks_eq_run`). What the events have added so far follows from what one event adds
(`run_spec`).

`ready_of_addBlocks` says in which state the walk begins, and `exists_visit_of_build` finds the
visit of an instruction in a build that succeeds, with the edges that it adds to the graph.
-/

namespace InstrGraph

/-- A step of the walk over a function. -/
inductive Event where
  | enter (block : Block)
  | visit (block : Block) (i : Instruction)
  deriving DecidableEq, Repr

namespace Event

/-- The block that is entered, or that the instruction belongs to. -/
def block : Event → Block
  | enter block => block
  | visit block _ => block

/-- The node that waits for a terminator from the event on: a block, or an instruction that is no
terminator. -/
def waiting? : Event → Option NodeKey
  | enter block => some block.key
  | visit _ i => if i.isTerminator then none else some i.key

/-- The instruction that is visited. -/
def visit? : Event → Option Instruction
  | enter _ => none
  | visit _ i => some i

end Event

/-- The instructions that are visited, in order. -/
def visits (events : List Event) : List Instruction := events.filterMap Event.visit?

/-- The ids of the instructions that are visited. -/
def visited (events : List Event) : List UInt32 := (visits events).map (·.id)

/-- The nodes that wait for a terminator after some events. -/
def waiting (events : List Event) : List NodeKey := events.filterMap Event.waiting?

/-- The events of the walk over blocks, in order. -/
def schedule (blocks : List Block) : List Event :=
  blocks.flatMap fun block => .enter block :: block.instructions.map (.visit block)

/-- A block is entered, its instructions are visited in order, and then the other blocks follow. -/
theorem schedule_cons (block : Block) (rest : List Block) :
    schedule (block :: rest) =
      .enter block :: (block.instructions.map (.visit block) ++ schedule rest) := rfl

/-- The instructions that are visited in two runs of events are those of the first and then those of
the second. -/
@[simp] theorem visited_append (events more : List Event) :
    visited (events ++ more) = visited events ++ visited more := by simp [visited, visits]

/-- Every instruction of a function is visited once, in the order of the function. -/
theorem visits_schedule (f : Function) : visits (schedule f.blocks) = f.instructions := by
  rw [visits, schedule, List.filterMap_flatMap, Function.instructions]
  congr 1
  funext block
  have hvisit : Event.visit? ∘ Event.visit block = some := rfl
  rw [List.filterMap_cons_none rfl, List.filterMap_map, hvisit, List.filterMap_some]

/-- Each instruction of a function has its place in the schedule. -/
theorem exists_event_of_split {f : Function} {before after : List Instruction} {i : Instruction}
    (h : f.instructions = before ++ i :: after) :
    ∃ pre block post, schedule f.blocks = pre ++ .visit block i :: post ∧ visits pre = before := by
  rw [← visits_schedule, visits, List.filterMap_eq_append_iff] at h
  obtain ⟨pre, rest, hsched, hpre, hrest⟩ := h
  obtain ⟨skipped, event, post, rfl, hskipped, hevent, -⟩ := List.filterMap_eq_cons_iff.mp hrest
  cases event with
  | enter => simp [Event.visit?] at hevent
  | visit block j =>
    obtain rfl : j = i := by simpa [Event.visit?] using hevent
    refine ⟨pre ++ skipped, block, post, by simp [hsched], ?_⟩
    rw [visits, List.filterMap_append, hpre, List.filterMap_eq_nil_iff.mpr hskipped,
      List.append_nil]

/-- A visit in the middle of the schedule splits the instructions of the function at its own. -/
theorem instructions_of_split {f : Function} {pre post : List Event} {block : Block}
    {i : Instruction} (h : schedule f.blocks = pre ++ .visit block i :: post) :
    f.instructions = visits pre ++ i :: visits post := by
  rw [← visits_schedule, h]
  simp [visits, Event.visit?]

/-- Every event of a schedule takes place in one of the blocks. -/
theorem block_mem_of_mem_schedule {blocks : List Block} {event : Event}
    (h : event ∈ schedule blocks) : event.block ∈ blocks := by
  simp only [schedule, List.mem_flatMap, List.mem_cons, List.mem_map] at h
  obtain ⟨block, hblock, rfl | ⟨i, -, rfl⟩⟩ := h <;> exact hblock

namespace Graph

/-- The node of a block. -/
def entryOf (g : Graph) (block : Block) : Nat := (g.indexOf? block.key).getD 0

/-- A block that has a node is found at its entry. -/
theorem getElem?_entryOf {g : Graph} {tracked : List NodeKey} (h : g.Tracks tracked)
    {block : Block} (hb : block.key ∈ g.keys) : g.keys[g.entryOf block]? = some block.key := by
  obtain ⟨k, hk⟩ := Option.isSome_iff_exists.mp (contains_iff.mpr hb)
  rw [entryOf, hk]
  exact (indexOf?_eq_some_iff h.nodup).mp hk

end Graph

namespace Builder

variable {b : Builder} {s s' : BuildState} {g g' g'' : Graph} {tracked : List NodeKey}
  {event : Event} {events : List Event}

/-- What an event does to a state. -/
def step (b : Builder) (s : BuildState) : Event → Except Error BuildState
  | .enter block => .ok { s with graph := s.graph.enterBlock (s.graph.entryOf block) }
  | .visit block i =>
    match b.walkInstruction (s.graph.entryOf block) (block.instructions.map (·.id)) s i with
    | .ok s => .ok s
    | .error m => .error (b.malformed i m)

/-- What events do to a state, one after the other. -/
def run (b : Builder) : BuildState → List Event → Except Error BuildState
  | s, [] => .ok s
  | s, event :: rest =>
    match b.step s event with
    | .ok s => b.run s rest
    | .error e => .error e

/-- A run succeeds if its first step does, and the rest of it from there. -/
theorem run_cons_eq_ok :
    b.run s (event :: events) = .ok s' ↔ ∃ t, b.step s event = .ok t ∧ b.run t events = .ok s' := by
  rw [run]
  cases b.step s event <;> simp

/-- A run over two lists of events goes on where the first one ends. -/
theorem run_append (s : BuildState) (events more : List Event) :
    b.run s (events ++ more) =
      match b.run s events with
      | .ok t => b.run t more
      | .error e => .error e := by
  induction events generalizing s with
  | nil => rfl
  | cons event rest ih =>
    rw [List.cons_append, run, run]
    cases b.step s event with
    | error e => rfl
    | ok t => exact ih t

/-- A run over two lists of events succeeds if both parts do, one after the other. -/
theorem run_append_eq_ok {more : List Event} :
    b.run s (events ++ more) = .ok s' ↔ ∃ t, b.run s events = .ok t ∧ b.run t more = .ok s' := by
  rw [run_append]
  cases b.run s events <;> simp

/-! ### What events add -/

/-- What events add to a graph: nodes of the instructions that are visited and of what they take,
edges that belong to these instructions, and the nodes that wait from then on. -/
structure Advances (tracked : List NodeKey) (events : List Event) (g g' : Graph) : Prop where
  tracks : g'.Tracks (tracked ++ waiting events)
  keys : g.keys <+: g'.keys
  walked : g'.walked = g.walked ++ visited events
  outer : ∀ k ∈ g'.keys, k ∈ g.keys ∨ (∃ i ∈ visits events, k = i.key) ∨
    k.isOuter = true ∧ ∃ e ∈ g'.edges, g'.keys[e.source]? = some k
  edges : ∃ new, g'.edges = g.edges ++ new ∧ ∀ e ∈ new,
    g.slots.length ≤ e.adder ∧ e.kind ≠ .entry ∧
      ∃ block i, .visit block i ∈ events ∧ g'.keys[e.adder]? = some i.key

/-- Nodes are never taken away. -/
theorem Advances.length_le (h : Advances tracked events g g') :
    g.slots.length ≤ g'.slots.length := by simpa using h.keys.length_le

/-- What one run of events adds and what the next one adds is added together by both. -/
theorem Advances.append {more : List Event} (h : Advances tracked events g g')
    (h' : Advances (tracked ++ waiting events) more g' g'') :
    Advances tracked (events ++ more) g g'' := by
  obtain ⟨new, hnew, hP⟩ := h.edges
  obtain ⟨new', hnew', hP'⟩ := h'.edges
  refine ⟨?_, h.keys.trans h'.keys, ?_, fun k hk => ?_, new ++ new', ?_, fun e he => ?_⟩
  · simpa [waiting] using h'.tracks
  · rw [h'.walked, h.walked, visited_append, List.append_assoc]
  · simp only [visits, List.filterMap_append, List.mem_append]
    rcases h'.outer k hk with hk | ⟨i, hi, rfl⟩ | hk
    · rcases h.outer k hk with hk | ⟨i, hi, rfl⟩ | ⟨ho, e, he, hek⟩
      · exact Or.inl hk
      · exact Or.inr (Or.inl ⟨i, Or.inl hi, rfl⟩)
      · refine Or.inr (Or.inr ⟨ho, e, ?_, Graph.getElem?_keys_of_isPrefix h'.keys hek⟩)
        rw [hnew']
        exact List.mem_append_left _ he
    · exact Or.inr (Or.inl ⟨i, Or.inr hi, rfl⟩)
    · exact Or.inr (Or.inr hk)
  · rw [hnew', hnew, List.append_assoc]
  · rcases List.mem_append.mp he with he | he
    · obtain ⟨hle, hne, block, i, hmem, hkey⟩ := hP e he
      exact ⟨hle, hne, block, i, List.mem_append_left _ hmem,
        Graph.getElem?_keys_of_isPrefix h'.keys hkey⟩
    · obtain ⟨hle, hne, block, i, hmem, hkey⟩ := hP' e he
      exact ⟨h.length_le.trans hle, hne, block, i, List.mem_append_right _ hmem, hkey⟩

/-- A step that visits an instruction is the walk over it, from the node of its block. -/
theorem walkInstruction_of_step {block : Block} {i : Instruction}
    (hr : b.step s (.visit block i) = .ok s') :
    b.walkInstruction (s.graph.entryOf block) (block.instructions.map (·.id)) s i = .ok s' := by
  rw [step] at hr
  split at hr
  · rename_i hw
    rw [hw, ← Except.ok.inj hr]
  · cases hr

/-- What a step does that visits an instruction, in a graph that keeps track of its nodes. -/
theorem visit_of_step {block : Block} {i : Instruction} (hr : b.step s (.visit block i) = .ok s')
    (h : s.graph.Tracks tracked) (hb : block.key ∈ s.graph.keys) :
    Visit b tracked block i (s.graph.entryOf block) s s' := by
  have hentry := (List.getElem?_eq_some_iff.mp (Graph.getElem?_entryOf h hb)).1
  exact walkInstruction_spec (walkInstruction_of_step hr) h (by simpa using hentry)

namespace Visit

variable {block : Block} {i : Instruction} {entry : Nat}

/-- A visit adds nodes behind those that are there. -/
theorem keys_isPrefix (h : Visit b tracked block i entry s s') : s.graph.keys <+: s'.graph.keys :=
  (List.prefix_append _ _).trans h.keys

/-- The node of the instruction is the first one that is added. -/
theorem getElem?_node (h : Visit b tracked block i entry s s') :
    s'.graph.keys[s.graph.slots.length]? = some i.key := by
  rw [← Graph.length_keys]
  have hlt : s.graph.keys.length < (s.graph.keys ++ [i.key]).length := by simp
  rw [List.prefix_iff_getElem?.mp h.keys _ hlt]
  simp

/-- A visit adds the instruction to those that have been walked. -/
theorem walked (h : Visit b tracked block i entry s s') :
    s'.graph.walked = s.graph.walked ++ [i.id] := by
  rw [Graph.walked_of_isPrefix h.keys h.tracks.nodup fun k hk => ?_, List.filterMap_append]
  · rfl
  · rcases h.outer k hk with hk | rfl | ⟨ho, -⟩
    · exact Or.inl (List.mem_append_left _ hk)
    · exact Or.inl (by simp)
    · exact Or.inr ho

/-- A visit adds a node for its instruction, and edges that belong to it. -/
theorem advances (h : Visit b tracked block i entry s s') :
    Advances tracked [.visit block i] s.graph s'.graph := by
  obtain ⟨new, hnew⟩ := h.edges
  refine ⟨?_, h.keys_isPrefix, h.walked, fun k hk => ?_, new, hnew.edges_eq, fun e he => ?_⟩
  · have hwaiting : waiting [.visit block i] = if i.isTerminator then [] else [i.key] := by
      by_cases ht : i.isTerminator = true <;> simp [waiting, Event.waiting?, ht]
    rw [hwaiting]
    exact h.tracks
  · rcases h.outer k hk with hk | rfl | ⟨ho, x, hx, rfl⟩
    · exact Or.inl hk
    · exact Or.inr (Or.inl ⟨i, by simp [visits, Event.visit?], rfl⟩)
    · have hmem : some x ∈ (new.filter Edge.carriesValue).map s'.graph.supplyOf? :=
        hnew.values ▸ List.mem_map_of_mem hx
      obtain ⟨e, he, hex⟩ := List.mem_map.mp hmem
      refine Or.inr (Or.inr ⟨ho, e, ?_, (Graph.supplyOf?_eq_some.mp hex).1⟩)
      rw [hnew.edges_eq]
      exact List.mem_append_right _ (List.mem_filter.mp he).1
  · refine ⟨(hnew.adder e he).ge, hnew.ne_entry e he, block, i, by simp, ?_⟩
    rw [hnew.adder e he, h.getElem?_node]

end Visit

/-- What one step adds, whatever its event is. -/
theorem step_spec (hr : b.step s event = .ok s') (h : s.graph.Tracks tracked)
    (hb : event.block.key ∈ s.graph.keys) : Advances tracked [event] s.graph s'.graph := by
  cases event with
  | enter block =>
    obtain rfl := Except.ok.inj hr
    have hkeys : (s.graph.enterBlock (s.graph.entryOf block)).keys = s.graph.keys :=
      Graph.keys_trackLeaf ..
    refine ⟨h.trackLeaf (Graph.getElem?_entryOf h hb), ?_, ?_, fun k hk => ?_, [], ?_, by simp⟩
    · exact hkeys.symm ▸ List.prefix_refl _
    · simp [Graph.walked, hkeys, visited, visits, Event.visit?]
    · exact Or.inl (hkeys ▸ hk)
    · simp [Graph.enterBlock]
  | visit block i => exact (visit_of_step hr h hb).advances

/-- What events add, by induction on the events. -/
theorem run_spec (hr : b.run s events = .ok s') (h : s.graph.Tracks tracked)
    (hb : ∀ event ∈ events, event.block.key ∈ s.graph.keys) :
    Advances tracked events s.graph s'.graph := by
  induction events generalizing s tracked with
  | nil =>
    obtain rfl : s = s' := Except.ok.inj hr
    exact ⟨by simpa [waiting] using h, List.prefix_refl _, by simp [visited, visits],
      fun _ hk => Or.inl hk, [], by simp⟩
  | cons event rest ih =>
    obtain ⟨t, ht, hrest⟩ := run_cons_eq_ok.mp hr
    have hstep := step_spec ht h (hb event (by simp))
    exact hstep.append
      (ih hrest hstep.tracks fun event he => hstep.keys.mem (hb event (by simp [he])))

/-! ### The builder runs the schedule -/

/-- Walking the instructions of a block is a run over the visits to them. -/
theorem walkInstructions_eq_run {block : Block} (is : List Instruction)
    (h : s.graph.Tracks tracked) (hb : block.key ∈ s.graph.keys) :
    b.walkInstructions (s.graph.entryOf block) (block.instructions.map (·.id)) s is =
      b.run s (is.map (.visit block)) := by
  induction is generalizing s tracked with
  | nil => rfl
  | cons i rest ih =>
    rw [walkInstructions, List.map_cons, run, step]
    cases hw : b.walkInstruction (s.graph.entryOf block) (block.instructions.map (·.id)) s i with
    | error m => rfl
    | ok t =>
      have hstep : b.step s (.visit block i) = .ok t := by rw [step, hw]
      have hadv := step_spec hstep h hb
      obtain ⟨k, hk⟩ := Option.isSome_iff_exists.mp (Graph.contains_iff.mpr hb)
      have hentry : t.graph.entryOf block = s.graph.entryOf block := by
        rw [Graph.entryOf, Graph.entryOf, hk, Graph.indexOf?_of_isPrefix hadv.keys hk]
      show b.walkInstructions (s.graph.entryOf block) _ t rest = _
      rw [← hentry]
      exact ih hadv.tracks (hadv.keys.mem hb)

/-- Each block with its node. -/
def Placed (g : Graph) (placed : List (Block × Nat)) : Prop :=
  ∀ p ∈ placed, g.indexOf? p.1.key = some p.2

/-- Walking the blocks is a run over the schedule of their events. -/
theorem walkBlocks_eq_run {placed : List (Block × Nat)} (h : s.graph.Tracks tracked)
    (hp : Placed s.graph placed) :
    b.walkBlocks s placed = b.run s (schedule (placed.map Prod.fst)) := by
  induction placed generalizing s tracked with
  | nil => rfl
  | cons p rest ih =>
    obtain ⟨block, index⟩ := p
    have hindex : s.graph.indexOf? block.key = some index := hp (block, index) (by simp)
    have hmem : block.key ∈ s.graph.keys :=
      Graph.contains_iff.mp (by rw [Graph.contains, hindex]; rfl)
    have hentry : s.graph.entryOf block = index := by rw [Graph.entryOf, hindex]; rfl
    -- entering the block, then its instructions, then the other blocks
    have henter : b.step s (.enter block) =
        .ok { s with graph := s.graph.enterBlock index } := by rw [step, hentry]
    rw [walkBlocks, List.map_cons, schedule_cons, run, henter]
    generalize { s with graph := s.graph.enterBlock index } = s₁ at henter
    have hadv := step_spec henter h hmem
    have hentry₁ : s₁.graph.entryOf block = index := by
      rw [Graph.entryOf, Graph.indexOf?_of_isPrefix hadv.keys hindex]
      rfl
    have hwalk := walkInstructions_eq_run (b := b) block.instructions hadv.tracks
      (hadv.keys.mem hmem)
    rw [hentry₁] at hwalk
    dsimp only
    rw [hwalk, run_append]
    cases hr : b.run s₁ (block.instructions.map (.visit block)) with
    | error e => rfl
    | ok t =>
      have hadv' := run_spec hr hadv.tracks fun event he => by
        obtain ⟨i, -, rfl⟩ := List.mem_map.mp he
        exact hadv.keys.mem hmem
      refine ih hadv'.tracks fun p hp' => ?_
      exact Graph.indexOf?_of_isPrefix (hadv.keys.trans hadv'.keys) (hp p (by simp [hp']))

/-! ### Where the walk begins -/

/-- A second block of the same label is refused. -/
theorem addBlocks_cons_of_mem {g : Graph} {block : Block} (h : block.key ∈ g.keys)
    (rest : List Block) : b.addBlocks g (block :: rest) = .error (b.duplicateLabel block) := by
  have hc : g.contains (.block (Token.normalizeLabel block.label)) = true :=
    Graph.contains_iff.mpr h
  rw [addBlocks, if_pos hc]

/-- A block of a new label gets the next node, and the other blocks are added behind it. -/
theorem addBlocks_cons_of_not_mem {g : Graph} {block : Block} (h : block.key ∉ g.keys)
    (rest : List Block) :
    b.addBlocks g (block :: rest) =
      (b.addBlocks (g.ensureNode block.key (.block block.instructions.length)).1 rest).map
        fun r => (r.1, (g.ensureNode block.key (.block block.instructions.length)).2 :: r.2) := by
  have hc : ¬ g.contains (.block (Token.normalizeLabel block.label)) = true :=
    fun hc => h (Graph.contains_iff.mp hc)
  rw [addBlocks, if_neg hc, Block.key]
  dsimp only
  cases b.addBlocks (g.ensureNode (.block (Token.normalizeLabel block.label))
    (.block block.instructions.length)).1 rest <;> rfl

/-- The graph `g'` is `g` with nodes for blocks, at the indices that are given. -/
structure BlocksAdded (tracked : List NodeKey) (blocks : List Block) (indices : List Nat)
    (g g' : Graph) : Prop where
  tracks : g'.Tracks tracked
  keys : g'.keys = g.keys ++ blocks.map Block.key
  edges : g'.edges = g.edges
  length_eq : indices.length = blocks.length
  placed : Placed g' (blocks.zip indices)

/-- Blocks that are added have nodes of their own, in order, and bring no edges. -/
theorem addBlocks_spec {blocks : List Block} {indices : List Nat}
    (hr : b.addBlocks g blocks = .ok (g', indices)) (h : g.Tracks tracked) :
    BlocksAdded tracked blocks indices g g' := by
  induction blocks generalizing g g' indices with
  | nil =>
    simp only [addBlocks, Except.ok.injEq, Prod.mk.injEq] at hr
    obtain ⟨rfl, rfl⟩ := hr
    exact ⟨h, by simp, rfl, rfl, by simp [Placed]⟩
  | cons block rest ih =>
    by_cases hkey : block.key ∈ g.keys
    · simp [addBlocks_cons_of_mem hkey] at hr
    · have hnode := h.ensureNode block.key (.block block.instructions.length)
      have hindex := h.keys_ensureNode block.key (.block block.instructions.length)
      have hkeys := Graph.keys_ensureNode g block.key (.block block.instructions.length)
      have hedges := Graph.edges_ensureNode g block.key (.block block.instructions.length)
      rw [if_neg hkey] at hkeys
      rw [addBlocks_cons_of_not_mem hkey] at hr
      generalize g.ensureNode block.key (.block block.instructions.length) = node at *
      obtain ⟨g₁, index⟩ := node
      dsimp only at *
      cases hmore : b.addBlocks g₁ rest with
      | error e => simp [hmore, Except.map] at hr
      | ok added =>
        obtain ⟨g₂, more⟩ := added
        simp only [hmore, Except.map, Except.ok.injEq, Prod.mk.injEq] at hr
        obtain ⟨rfl, rfl⟩ := hr
        have hrest := ih hmore hnode
        have hprefix : g₁.keys <+: g₂.keys := ⟨_, hrest.keys.symm⟩
        refine ⟨hrest.tracks, by simp [hrest.keys, hkeys], hrest.edges.trans hedges,
          by simp [hrest.length_eq], fun p hp => ?_⟩
        rw [List.zip_cons_cons] at hp
        rcases List.mem_cons.mp hp with rfl | hp
        · exact Graph.indexOf?_of_isPrefix hprefix
            ((Graph.indexOf?_eq_some_iff hnode.nodup).mpr hindex)
        · exact hrest.placed p hp

/-- The graph with the node of the function alone, and the index of the node. -/
def root (b : Builder) : Graph × Nat :=
  (Graph.empty b.function.name).ensureNode .function
    (.function b.function.params.length b.function.blocks.length)

/-- The graph begins with the node of the function, which has the first index, and no edges. -/
theorem root_eq (b : Builder) :
    b.root.1.Tracks [] ∧ b.root.1.keys = [.function] ∧ b.root.1.edges = [] ∧ b.root.2 = 0 :=
  ⟨(Graph.Tracks.empty _).ensureNode _ _, rfl, rfl, rfl⟩

/-- The graph with the edge from the function to its first block, if there is one. -/
def linkFirst (g : Graph) (root : Nat) : List Nat → Graph
  | first :: _ => g.addEdge root first .entry
  | [] => g

/-- A build adds the blocks, links the function to the first one, and walks the blocks. -/
theorem build_eq (b : Builder) :
    b.build =
      match b.addBlocks b.root.1 b.function.blocks with
      | .error e => .error e
      | .ok (g, indices) =>
        match b.walkBlocks { graph := linkFirst g b.root.2 indices }
            (b.function.blocks.zip indices) with
        | .error e => .error e
        | .ok s => .ok (s.graph, s.diagnostics ++ b.unreachableBlocks s.graph indices) := by
  rw [build]
  change (b.addBlocks b.root.1 b.function.blocks >>= _) = _
  cases b.addBlocks b.root.1 b.function.blocks with
  | error e => rfl
  | ok added =>
    obtain ⟨g, indices⟩ := added
    cases indices with
    | nil =>
      change (b.walkBlocks { graph := g } _ >>= _) = _
      simp only [linkFirst]
      cases b.walkBlocks { graph := g } (b.function.blocks.zip []) <;> rfl
    | cons first rest =>
      change (b.walkBlocks { graph := g.addEdge b.root.2 first .entry } _ >>= _) = _
      simp only [linkFirst]
      cases b.walkBlocks { graph := g.addEdge b.root.2 first .entry }
        (b.function.blocks.zip (first :: rest)) <;> rfl

/-- The edge from the function to its first block. -/
def entryEdges : List Block → List Edge
  | [] => []
  | _ :: _ => [⟨0, 1, .entry⟩]

/-- The graph in which the walk begins: the function and its blocks have nodes, and the function
has its edge. -/
structure Ready (b : Builder) (g : Graph) : Prop where
  tracks : g.Tracks []
  keys : g.keys = .function :: b.function.blocks.map Block.key
  edges : g.edges = entryEdges b.function.blocks

namespace Ready

/-- Every block has its node when the walk begins. -/
theorem blocks (h : Ready b g) (block : Block) (hb : block ∈ b.function.blocks) :
    block.key ∈ g.keys := by
  rw [h.keys]
  exact List.mem_cons_of_mem _ (List.mem_map_of_mem hb)

/-- The block of every event has its node when the walk begins. -/
theorem event_blocks (h : Ready b g) (event : Event) (he : event ∈ schedule b.function.blocks) :
    event.block.key ∈ g.keys := h.blocks _ (block_mem_of_mem_schedule he)

/-- Nothing has been walked when the walk begins. -/
theorem walked (h : Ready b g) : g.walked = [] := by
  rw [Graph.walked, h.keys]
  simp [NodeKey.instructionId?, Block.key]

/-- The edges that are there when the walk begins were added for nodes that are there as well. -/
theorem adder_lt (h : Ready b g) (e : Edge) (he : e ∈ g.edges) : e.adder < g.slots.length := by
  rw [h.edges] at he
  rw [← Graph.length_keys, h.keys]
  cases hb : b.function.blocks with
  | nil => simp [hb, entryEdges] at he
  | cons block rest =>
    obtain rfl : e = ⟨0, 1, .entry⟩ := by simpa [hb, entryEdges] using he
    simp [Edge.adder]

/-- Whatever is walked, only the blocks have nodes of their sort. -/
theorem block_mem_iff (h : Ready b g) (hadv : Advances [] events g g') {label : String} :
    .block label ∈ g'.keys ↔ ∃ block ∈ b.function.blocks, block.key = .block label := by
  constructor
  · intro hk
    rcases hadv.outer _ hk with hk | ⟨i, -, hk⟩ | ⟨ho, -⟩
    · rw [h.keys] at hk
      exact List.mem_map.mp ((List.mem_cons.mp hk).resolve_left (by simp))
    · simp [Instruction.key] at hk
    · simp [NodeKey.isOuter] at ho
  · rintro ⟨block, hblock, hkey⟩
    exact hkey ▸ hadv.keys.mem (h.blocks block hblock)

end Ready

/-- The walk begins in a graph that is ready, and each block has its node. -/
theorem ready_of_addBlocks {indices : List Nat}
    (hr : b.addBlocks b.root.1 b.function.blocks = .ok (g, indices)) :
    Ready b (linkFirst g b.root.2 indices) ∧
      Placed (linkFirst g b.root.2 indices) (b.function.blocks.zip indices) ∧
      (b.function.blocks.zip indices).map Prod.fst = b.function.blocks := by
  obtain ⟨hroot, hrootKeys, hrootEdges, hzero⟩ := b.root_eq
  have hadded := addBlocks_spec hr hroot
  have hkeys : g.keys = .function :: b.function.blocks.map Block.key := by
    rw [hadded.keys, hrootKeys, List.singleton_append]
  have hnone : g.edges = [] := hadded.edges.trans hrootEdges
  have hfst : (b.function.blocks.zip indices).map Prod.fst = b.function.blocks :=
    List.map_fst_zip hadded.length_eq.ge
  have hlen := hadded.length_eq
  have hplaced := hadded.placed
  cases hblocks : b.function.blocks with
  | nil =>
    rw [hblocks] at hkeys hplaced hfst hlen
    obtain rfl : indices = [] := by simpa using hlen
    exact ⟨⟨hadded.tracks, by rw [hblocks]; exact hkeys, by rw [hblocks]; exact hnone⟩, hplaced,
      rfl⟩
  | cons block rest =>
    rw [hblocks] at hkeys hplaced hfst hlen
    cases indices with
    | nil => simp at hlen
    | cons first more =>
      -- the node of the first block comes right after that of the function
      have hfirst := (Graph.indexOf?_eq_some_iff hadded.tracks.nodup).mp
        (hplaced (block, first) (by simp))
      have hone : g.keys[1]? = some block.key := by simp [hkeys]
      obtain rfl : first = 1 := (List.getElem?_inj (List.getElem?_eq_some_iff.mp hfirst).1
        hadded.tracks.nodup).mp (hfirst.trans hone.symm)
      have hlink : (linkFirst g b.root.2 (1 :: more)).keys = g.keys := Graph.keys_addEdge ..
      have hlt : b.root.2 < g.slots.length := by
        rw [hzero, ← Graph.length_keys, hkeys]
        simp
      refine ⟨⟨hadded.tracks.addEdge hlt 1 .entry, ?_, ?_⟩, fun p hp => ?_, hfst⟩
      · rw [hlink, hblocks, hkeys]
      · rw [linkFirst, Graph.edges_addEdge, hnone, hzero, hblocks]
        rfl
      · exact Graph.indexOf?_of_isPrefix (hlink ▸ List.prefix_refl _) (hplaced p hp)

variable {ds : List Diagnostic}

/-- Once the blocks have nodes, a build runs the schedule of the function. -/
theorem build_eq_run {indices : List Nat}
    (hr : b.addBlocks b.root.1 b.function.blocks = .ok (g, indices)) :
    ∃ s, Ready b s.graph ∧ b.build = (b.run s (schedule b.function.blocks)).map fun s =>
      (s.graph, s.diagnostics ++ b.unreachableBlocks s.graph indices) := by
  obtain ⟨hready, hplaced, hfst⟩ := ready_of_addBlocks hr
  refine ⟨{ graph := linkFirst g b.root.2 indices }, hready, ?_⟩
  rw [build_eq, hr]
  dsimp only
  rw [walkBlocks_eq_run hready.tracks hplaced, hfst]
  cases b.run { graph := linkFirst g b.root.2 indices } (schedule b.function.blocks) <;> rfl

/-- A build runs the schedule of the function from a graph that is ready. -/
theorem run_of_build (h : b.build = .ok (g, ds)) :
    ∃ s s', Ready b s.graph ∧ b.run s (schedule b.function.blocks) = .ok s' ∧ g = s'.graph := by
  cases hadd : b.addBlocks b.root.1 b.function.blocks with
  | error e =>
    rw [build_eq, hadd] at h
    simp at h
  | ok added =>
    obtain ⟨s, hready, hbuild⟩ := build_eq_run hadd
    rw [hbuild] at h
    cases hrun : b.run s (schedule b.function.blocks) with
    | error e => simp [hrun, Except.map] at h
    | ok s' =>
      simp only [hrun, Except.map, Except.ok.injEq, Prod.mk.injEq] at h
      exact ⟨s, s', hready, hrun, h.1.symm⟩

/-- What a build adds to the graph in which the walk begins. -/
theorem advances_of_build (h : b.build = .ok (g, ds)) :
    ∃ g₀, Ready b g₀ ∧ Advances [] (schedule b.function.blocks) g₀ g := by
  obtain ⟨s, s', hready, hrun, rfl⟩ := run_of_build h
  exact ⟨s.graph, hready, run_spec hrun hready.tracks hready.event_blocks⟩

/-! ### A visit in the middle of a build -/

variable {pre post : List Event} {block : Block} {i : Instruction} {new : List Edge}

/-- A visit in the middle of a build: the states before and after it, and the edges that it adds,
in their place among the edges of the finished graph. -/
structure VisitOf (b : Builder) (g : Graph) (pre : List Event) (block : Block) (i : Instruction)
    (s s' : BuildState) (new : List Edge) : Prop where
  visit : Visit b (waiting pre) block i (s.graph.entryOf block) s s'
  added : VisitEdges b (waiting pre) block i (s.graph.entryOf block) s s' new
  before : s.graph.Tracks (waiting pre)
  walked : s.graph.walked = visited pre
  entry : block.key ∈ s.graph.keys
  after : s'.graph.keys <+: g.keys
  nodup : g.keys.Nodup
  edges : ∃ later, g.edges = s.graph.edges ++ new ++ later ∧
    (∀ e ∈ s.graph.edges, e.adder < s.graph.slots.length) ∧
    ∀ e ∈ later, s.graph.slots.length < e.adder

/-- Every instruction of the schedule is visited in the course of a successful build. -/
theorem exists_visit_of_build (h : b.build = .ok (g, ds))
    (hsched : schedule b.function.blocks = pre ++ .visit block i :: post) :
    ∃ s s' new, VisitOf b g pre block i s s' new := by
  obtain ⟨s₀, s₁, hready, hrun, rfl⟩ := run_of_build h
  have hblocks := hready.event_blocks
  rw [hsched] at hrun hblocks
  obtain ⟨s, hpre, hrest⟩ := run_append_eq_ok.mp hrun
  obtain ⟨s', hstep, hpost⟩ := run_cons_eq_ok.mp hrest
  have hadv := run_spec hpre hready.tracks fun event he => hblocks event (by simp [he])
  have hentry : block.key ∈ s.graph.keys :=
    hadv.keys.mem (hblocks (.visit block i) (by simp))
  have hvisit := visit_of_step hstep hadv.tracks hentry
  have hadvPost := run_spec hpost hvisit.advances.tracks fun event he =>
    hvisit.advances.keys.mem (hadv.keys.mem (hblocks event (by simp [he])))
  have hlt : s.graph.slots.length < s'.graph.slots.length := by
    have := hvisit.keys.length_le
    simp only [List.length_append, Graph.length_keys, List.length_singleton] at this
    omega
  obtain ⟨new, hnew⟩ := hvisit.edges
  obtain ⟨later, hlater, hlaterP⟩ := hadvPost.edges
  obtain ⟨old, hold, holdP⟩ := hadv.edges
  refine ⟨s, s', new, hvisit, hnew, hadv.tracks, ?_, hentry, hadvPost.keys,
    hadvPost.tracks.nodup, later, by rw [hlater, hnew.edges_eq], fun e he => ?_,
    fun e he => lt_of_lt_of_le hlt (hlaterP e he).1⟩
  · rw [hadv.walked, hready.walked, List.nil_append]
  · rw [hold] at he
    rcases List.mem_append.mp he with he | he
    · exact lt_of_lt_of_le (hready.adder_lt e he) hadv.length_le
    · obtain ⟨-, -, -, i', -, hkey⟩ := holdP e he
      simpa using (List.getElem?_eq_some_iff.mp hkey).1

namespace VisitOf

variable {s s' : BuildState}

/-- The node that a visit adds first is that of its instruction, also in the finished graph. -/
theorem getElem?_node (h : VisitOf b g pre block i s s' new) :
    g.keys[s.graph.slots.length]? = some i.key :=
  Graph.getElem?_keys_of_isPrefix h.after h.visit.getElem?_node

/-- The node of an instruction is found at the index that the next node had when it was visited. -/
theorem indexOf?_node (h : VisitOf b g pre block i s s' new) :
    g.indexOf? i.key = some s.graph.slots.length :=
  (Graph.indexOf?_eq_some_iff h.nodup).mpr h.getElem?_node

/-- The finished graph has the nodes of the time of the visit in front. -/
theorem keys_isPrefix (h : VisitOf b g pre block i s s' new) : s.graph.keys <+: g.keys :=
  h.visit.keys_isPrefix.trans h.after

/-- The block of a visit is found in the finished graph where it was found during the visit. -/
theorem indexOf?_entry (h : VisitOf b g pre block i s s' new) :
    g.indexOf? block.key = some (s.graph.entryOf block) :=
  Graph.indexOf?_of_isPrefix h.keys_isPrefix
    ((Graph.indexOf?_eq_some_iff h.before.nodup).mpr (Graph.getElem?_entryOf h.before h.entry))

/-- The edges of the finished graph that belong to the instruction are those of the visit. -/
theorem filter_adder (h : VisitOf b g pre block i s s' new) (p : Edge → Bool) :
    g.edges.filter (fun e => p e && e.adder == s.graph.slots.length) = new.filter p := by
  obtain ⟨later, hedges, hold, hlater⟩ := h.edges
  have hnone (edges : List Edge) (hne : ∀ e ∈ edges, e.adder ≠ s.graph.slots.length) :
      edges.filter (fun e => p e && e.adder == s.graph.slots.length) = [] :=
    List.filter_eq_nil_iff.mpr fun e he => by simp [hne e he]
  have hsome : new.filter (fun e => p e && e.adder == s.graph.slots.length) = new.filter p :=
    List.filter_congr fun e he => by simp [h.added.adder e he]
  rw [hedges, List.filter_append, List.filter_append, hsome,
    hnone _ fun e he => (hold e he).ne, hnone _ fun e he => (hlater e he).ne', List.nil_append,
    List.append_nil]

/-- The edges that a visit adds are those of the finished graph that were added for its
instruction. -/
theorem mem_new_iff (h : VisitOf b g pre block i s s' new) {e : Edge} :
    e ∈ new ↔ e ∈ g.edges ∧ e.adder = s.graph.slots.length := by
  have hfilter := h.filter_adder fun _ => true
  rw [List.filter_true] at hfilter
  rw [← hfilter]
  simp

end VisitOf

/-- Every edge but that of the function is added by a visit. -/
theorem exists_visit_of_mem_edges (h : b.build = .ok (g, ds)) {e : Edge} (he : e ∈ g.edges)
    (hk : e.kind ≠ .entry) :
    ∃ pre block i post s s' new, schedule b.function.blocks = pre ++ .visit block i :: post ∧
      VisitOf b g pre block i s s' new ∧ e ∈ new := by
  obtain ⟨g₀, hready, hadv⟩ := advances_of_build h
  obtain ⟨added, hadded, hP⟩ := hadv.edges
  rw [hadded, List.mem_append] at he
  rcases he with he' | he'
  · rw [hready.edges] at he'
    cases hb : b.function.blocks with
    | nil => simp [hb, entryEdges] at he'
    | cons block rest =>
      obtain rfl : e = ⟨0, 1, .entry⟩ := by simpa [hb, entryEdges] using he'
      exact absurd rfl hk
  · obtain ⟨-, -, block, i, hmem, hkey⟩ := hP e he'
    obtain ⟨pre, post, hsched⟩ := List.append_of_mem hmem
    obtain ⟨s, s', new, hvisit⟩ := exists_visit_of_build h hsched
    refine ⟨pre, block, i, post, s, s', new, hsched, hvisit, hvisit.mem_new_iff.mpr ⟨?_, ?_⟩⟩
    · rw [hadded]
      exact List.mem_append_right _ he'
    · have hlt := (List.getElem?_eq_some_iff.mp hkey).1
      exact (List.getElem?_inj hlt hvisit.nodup).mp (hkey.trans hvisit.getElem?_node.symm)

end Builder

end InstrGraph

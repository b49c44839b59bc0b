import InstrGraph.Proofs.Graph.Edges
import InstrGraph.Proofs.Graph.Invariants

/-!
# Warnings about blocks

While the instructions of a function are walked, only operands give warnings
(`BuildState.OnlyOperands`). When the walk is over, every block is looked at that no edge enters.

Only the edge of the function and control lead to blocks, so these are the blocks other than the
first one that no instruction may go to, wherever the instruction stands
(`inDegree_block_eq_zero_iff`).
-/

namespace InstrGraph

/-- Warnings about different blocks are different. -/
theorem Diagnostic.unreachableBlock_injective : Function.Injective Diagnostic.unreachableBlock := by
  intro l l' h
  have htext := congrArg String.toList (Diagnostic.mk.inj h).2.2
  simpa [String.toList_inj] using htext

/-- Some instruction of the function may go to the block. -/
def Function.Reaches (f : Function) (block : Block) : Prop :=
  ∃ i ∈ f.instructions, ∃ t ∈ i.successors,
    Token.normalizeLabel t = Token.normalizeLabel block.label

instance (f : Function) (block : Block) : Decidable (f.Reaches block) :=
  inferInstanceAs (Decidable (∃ i ∈ f.instructions, ∃ t ∈ i.successors, _))

/-- The blocks other than the first one that no instruction may go to. -/
def Function.unreachedBlocks (f : Function) : List Block :=
  f.blocks.tail.filter fun block => ¬ f.Reaches block

/-- The warnings about them. -/
def Function.unreachableWarnings (f : Function) : List Diagnostic :=
  f.unreachedBlocks.map fun block => .unreachableBlock block.label

/-- A block is reached if it is the target of an instruction. -/
theorem Function.reaches_iff {f : Function} {block : Block} :
    f.Reaches block ↔ ∃ i ∈ f.instructions, ∃ t ∈ i.successors,
      Builder.targetKey t = block.key := by
  simp [Reaches, Builder.targetKey, Block.key]

/-! ### The warnings of the walk -/

namespace BuildState

/-- All warnings so far are about operands. -/
def OnlyOperands (s : BuildState) : Prop := ∀ d ∈ s.diagnostics, d.kind = .unresolvedReference

/-- No operation of the walk warns about anything else. -/
theorem lasts_onlyOperands : Lasts OnlyOperands where
  ensureNode _ _ h := h
  addEdge _ _ _ h := h
  trackLeaf _ h := h
  unresolved _ _ h := by
    intro d hd
    rcases List.mem_append.mp hd with hd | hd
    · exact h d hd
    · obtain rfl := List.mem_singleton.mp hd
      rfl

end BuildState

namespace Builder

variable {b : Builder}

/-! ### The option -/

/-- The builder with the option to report blocks that nothing leads to, or without it. -/
def reporting (b : Builder) (report : Bool) : Builder :=
  { b with config := { b.config with reportUnreachableBlocks := report } }

section

variable (b : Builder) (report : Bool)

/-- Adding the blocks does not depend on the option for warnings. -/
theorem addBlocks_reporting (g : Graph) (blocks : List Block) :
    (b.reporting report).addBlocks g blocks = b.addBlocks g blocks := by
  induction blocks generalizing g with
  | nil => rfl
  | cons block rest ih =>
    simp only [addBlocks, ih]
    rfl

/-- Walking instructions does not depend on the option for warnings. -/
theorem walkInstructions_reporting (block : Nat) (blockIds : List UInt32) (s : BuildState)
    (is : List Instruction) :
    (b.reporting report).walkInstructions block blockIds s is =
      b.walkInstructions block blockIds s is := by
  induction is generalizing s with
  | nil => rfl
  | cons i rest ih =>
    simp only [walkInstructions, ih]
    rfl

/-- Walking blocks does not depend on the option for warnings. -/
theorem walkBlocks_reporting (s : BuildState) (placed : List (Block × Nat)) :
    (b.reporting report).walkBlocks s placed = b.walkBlocks s placed := by
  induction placed generalizing s with
  | nil => rfl
  | cons p rest ih => simp only [walkBlocks, walkInstructions_reporting, ih]

/-- The option does not matter before the walk is over. -/
theorem build_reporting :
    (b.reporting report).build =
      match b.addBlocks b.root.1 b.function.blocks with
      | .error e => .error e
      | .ok (g, indices) =>
        match b.walkBlocks { graph := linkFirst g b.root.2 indices }
            (b.function.blocks.zip indices) with
        | .error e => .error e
        | .ok s => .ok (s.graph,
            s.diagnostics ++ (b.reporting report).unreachableBlocks s.graph indices) := by
  rw [build_eq]
  simp only [addBlocks_reporting, walkBlocks_reporting]
  rfl

end

variable {g : Graph} {ds : List Diagnostic} {block : Block} {placed : List (Block × Nat)}

/-- How a build that succeeds comes about, with the option or without it. -/
theorem exists_walk_of_build (h : b.build = .ok (g, ds)) :
    ∃ (s : BuildState) (indices : List Nat), s.OnlyOperands ∧
      Placed g (b.function.blocks.zip indices) ∧
      (b.function.blocks.zip indices).map Prod.fst = b.function.blocks ∧
      ∀ report, (b.reporting report).build =
        .ok (g, s.diagnostics ++ (b.reporting report).unreachableBlocks g indices) := by
  rw [build_eq] at h
  cases hadd : b.addBlocks b.root.1 b.function.blocks with
  | error e => simp [hadd] at h
  | ok added =>
    obtain ⟨g₁, indices⟩ := added
    rw [hadd] at h
    dsimp only at h
    cases hwalk : b.walkBlocks { graph := linkFirst g₁ b.root.2 indices }
        (b.function.blocks.zip indices) with
    | error e => simp [hwalk] at h
    | ok s =>
      obtain rfl : s.graph = g := by
        rw [hwalk] at h
        exact (Prod.mk.inj (Except.ok.inj h)).1
      obtain ⟨hready, hplaced, hfst⟩ := ready_of_addBlocks hadd
      have hrun := hwalk
      rw [walkBlocks_eq_run hready.tracks hplaced, hfst] at hrun
      have hadv := run_spec hrun hready.tracks hready.event_blocks
      refine ⟨s, indices, BuildState.lasts_onlyOperands.run (fun d hd => by cases hd) hrun,
        fun p hp => Graph.indexOf?_of_isPrefix hadv.keys (hplaced p hp), hfst, fun report => ?_⟩
      rw [build_reporting, hadd]
      dsimp only
      rw [hwalk]

/-! ### Blocks that no edge enters -/

/-- A node without incoming edges is the target of none. -/
theorem inDegree_eq_zero_iff {n : Nat} : g.inDegree n = 0 ↔ ∀ e ∈ g.edges, e.target ≠ n := by
  simp [Graph.inDegree]

/-- The edge of the function enters the first block. -/
theorem exists_edge_first (h : b.build = .ok (g, ds)) (hn : g.keys[1]? = some block.key) :
    ∃ e ∈ g.edges, e.target = 1 := by
  cases hblocks : b.function.blocks with
  | nil =>
    obtain ⟨g₀, hready, hadv⟩ := advances_of_build h
    obtain ⟨first, hfirst, -⟩ := (hready.block_mem_iff hadv).mp (List.mem_of_getElem? hn)
    simp [hblocks] at hfirst
  | cons first rest =>
    have hentry : (⟨0, 1, .entry⟩ : Edge) ∈ g.edges.filter Edge.isEntry := by
      rw [filter_isEntry_of_build h, hblocks]
      exact List.mem_singleton_self _
    exact ⟨_, (List.mem_filter.mp hentry).1, rfl⟩

/-- Wherever an instruction stands that may go to a block, an edge leads there in the end. -/
theorem exists_edge_of_reaches (h : b.build = .ok (g, ds)) (hn : g.keys[n]? = some block.key)
    (hr : b.function.Reaches block) : ∃ e ∈ g.edges, e.target = n := by
  obtain ⟨i, hi, t, ht, hkey⟩ := Function.reaches_iff.mp hr
  obtain ⟨before, after, hsplit⟩ := List.append_of_mem hi
  obtain ⟨pre, entered, post, hsched, -⟩ := exists_event_of_split hsplit
  obtain ⟨s, s', new, hvisit⟩ := exists_visit_of_build h hsched
  -- the visit adds an edge for each target, and the keys of nodes stay
  have hmem : some (targetKey t) ∈
      (new.filter Edge.isControl).map fun e => s'.graph.keyAt? e.target := by
    rw [hvisit.added.control]
    exact List.mem_map.mpr ⟨t, ht, rfl⟩
  obtain ⟨e, he, htarget⟩ := List.mem_map.mp hmem
  refine ⟨e, (hvisit.mem_new_iff.mp (List.mem_filter.mp he).1).1, ?_⟩
  rw [Graph.keyAt?_eq] at htarget
  have hlast := Graph.getElem?_keys_of_isPrefix hvisit.after htarget
  rw [hkey] at hlast
  exact (List.getElem?_inj (List.getElem?_eq_some_iff.mp hlast).1 (nodup_of_build h)).mp
    (hlast.trans hn.symm)

/-- Edges of other kinds enter no block. -/
theorem first_or_reaches_of_mem_edges (h : b.build = .ok (g, ds)) {e : Edge} (he : e ∈ g.edges)
    (hn : g.keys[e.target]? = some block.key) : e.target = 1 ∨ b.function.Reaches block := by
  rw [← Graph.keyAt?_eq] at hn
  rcases target_cases h he with ⟨hk | hc, -⟩ | ⟨id, hid⟩
  · obtain ⟨-, -, -, rfl⟩ := eq_of_kind_entry h he hk
    exact Or.inl rfl
  · obtain ⟨i, hi, t, ht, hconnects⟩ := control_cases h he hc
    exact Or.inr (Function.reaches_iff.mpr
      ⟨i, hi, t, ht, Option.some.inj (hconnects.2.symm.trans hn)⟩)
  · simp [Block.key, hid] at hn

/-- No edge enters a block exactly if it is not the first one, which has the node after that of the
function, and no instruction may go to it. -/
theorem inDegree_block_eq_zero_iff (h : b.build = .ok (g, ds))
    (hn : g.keys[n]? = some block.key) :
    g.inDegree n = 0 ↔ n ≠ 1 ∧ ¬ b.function.Reaches block := by
  rw [inDegree_eq_zero_iff]
  constructor
  · intro hnone
    refine ⟨?_, fun hr => ?_⟩
    · rintro rfl
      obtain ⟨e, he, htarget⟩ := exists_edge_first h hn
      exact hnone e he htarget
    · obtain ⟨e, he, htarget⟩ := exists_edge_of_reaches h hn hr
      exact hnone e he htarget
  · rintro ⟨hfirst, hunreached⟩ e he rfl
    rcases first_or_reaches_of_mem_edges h he hn with heq | hr
    · exact hfirst heq
    · exact hunreached hr

/-- The first block has the second node. -/
theorem getElem?_firstBlock (h : b.build = .ok (g, ds)) {first : Block} {rest : List Block}
    (hblocks : b.function.blocks = first :: rest) : g.keys[1]? = some first.key := by
  obtain ⟨more, hmore⟩ := keys_prefix_of_build h
  simp [← hmore, hblocks]

/-- The blocks of a function with a graph are different. -/
theorem nodup_blockKeys (h : b.build = .ok (g, ds)) : (b.function.blocks.map Block.key).Nodup :=
  ((keys_prefix_of_build h).sublist.nodup (nodup_of_build h)).of_cons

/-- The blocks that no edge enters, once each one is looked at with its node. -/
theorem filterMap_inDegree (h : b.build = .ok (g, ds)) {placed : List (Block × Nat)}
    (hplaced : Placed g placed) (hfst : placed.map Prod.fst = b.function.blocks) :
    placed.filterMap (fun p =>
      if g.inDegree p.2 = 0 then some (Diagnostic.unreachableBlock p.1.label) else none) =
      b.function.unreachableWarnings := by
  have hkeys : ∀ p ∈ placed, g.keys[p.2]? = some p.1.key := fun p hp =>
    (Graph.indexOf?_eq_some_iff (nodup_of_build h)).mp (hplaced p hp)
  cases placed with
  | nil => simp [Function.unreachableWarnings, Function.unreachedBlocks, ← hfst]
  | cons p rest =>
    -- the first block is entered, and the others are no first ones since their labels differ
    obtain ⟨hp, hrest⟩ := List.forall_mem_cons.mp hkeys
    have hone := getElem?_firstBlock h hfst.symm
    have hfirst : p.2 = 1 := (List.getElem?_inj (List.getElem?_eq_some_iff.mp hp).1
      (nodup_of_build h)).mp (hp.trans hone.symm)
    have hentered : ¬ g.inDegree p.2 = 0 := fun hzero =>
      ((inDegree_block_eq_zero_iff h hp).mp hzero).1 hfirst
    have hother : ∀ q ∈ rest, q.2 ≠ 1 := by
      intro q hq heq
      have hnodup := nodup_blockKeys h
      rw [← hfst, List.map_cons, List.map_cons, List.nodup_cons] at hnodup
      have hkey : q.1.key = p.1.key := Option.some.inj ((hrest q hq).symm.trans (heq ▸ hone))
      exact hnodup.1 (hkey ▸ List.mem_map_of_mem (List.mem_map_of_mem hq))
    rw [List.filterMap_cons, if_neg hentered, Function.unreachableWarnings,
      Function.unreachedBlocks, ← hfst, List.map_cons, List.tail_cons, List.filter_map,
      List.map_map, ← List.filterMap_eq_map, List.filterMap_filter]
    refine List.filterMap_congr fun q hq => ?_
    by_cases hreached : b.function.Reaches q.1 <;>
      simp [inDegree_block_eq_zero_iff h (hrest q hq), hother q hq, hreached]

/-- No two of these warnings are the same, since no two blocks have one label. -/
theorem nodup_unreachableWarnings (h : b.build = .ok (g, ds)) :
    b.function.unreachableWarnings.Nodup := by
  have hsub : b.function.unreachedBlocks.Sublist b.function.blocks :=
    List.filter_sublist.trans (List.tail_sublist _)
  have hkeys := List.pairwise_map.mp ((nodup_blockKeys h).sublist (hsub.map Block.key))
  refine List.pairwise_map.mpr (hkeys.imp fun hne heq => hne ?_)
  rw [Block.key, Block.key, Diagnostic.unreachableBlock_injective heq]

/-- After all other warnings, and only if the option asks for it, come those about the blocks other
than the first that no instruction may go to, in their order and each once. The graph and the other
warnings do not depend on the option. -/
theorem unreachable_warnings_of_build (h : b.build = .ok (g, ds)) :
    b.function.unreachableWarnings.Nodup ∧
      ∃ others : List Diagnostic, (∀ d ∈ others, d.kind ≠ .unreachableBlock) ∧
        ds = others ++
          (if b.config.reportUnreachableBlocks then b.function.unreachableWarnings else []) ∧
        (b.reporting true).build = .ok (g, others ++ b.function.unreachableWarnings) ∧
        (b.reporting false).build = .ok (g, others) := by
  obtain ⟨s, indices, honly, hplaced, hfst, hbuild⟩ := exists_walk_of_build h
  have hreport (report : Bool) : (b.reporting report).build =
      .ok (g, s.diagnostics ++ if report then b.function.unreachableWarnings else []) := by
    rw [hbuild, ← filterMap_inDegree h hplaced hfst]
    rfl
  refine ⟨nodup_unreachableWarnings h, s.diagnostics, fun d hd hkind => ?_, ?_, hreport true, ?_⟩
  · rw [honly d hd] at hkind
    cases hkind
  · exact (Prod.mk.inj (Except.ok.inj (h.symm.trans (hreport b.config.reportUnreachableBlocks)))).2
  · simpa using hreport false

/-- Behind a return, two blocks that go to each other and one that nothing goes to. -/
def deadExample : Builder :=
  .of
    { name := "f", params := []
      blocks := [
        ⟨"%label_0", [{ id := 1, opcode := .ret, text := "ret i32 %gone",
                        returnValue := some "i32 %gone" }]⟩,
        ⟨"%label_1", [{ id := 2, opcode := .br, text := "br label %label_2",
                        targets := ["label %label_2"] }]⟩,
        ⟨"%label_2", [{ id := 3, opcode := .br, text := "br label %label_1",
                        targets := ["label %label_1"] }]⟩,
        ⟨"%label_3", [{ id := 4, opcode := .br, text := "br label %label_0",
                        targets := ["label %label_0"] }]⟩] }
    (.empty .label false) {} { reportUnreachableBlocks := true } "<const>"

/-- Only the last block is warned about, after the operand. -/
theorem unreachable_warnings_of_deadExample :
    ∃ g, deadExample.build =
        .ok (g, [.unresolved 1 "i32 %gone", .unreachableBlock "%label_3"]) ∧
      deadExample.function.unreachableWarnings = [.unreachableBlock "%label_3"] ∧
      deadExample.function.unreachableWarnings.Nodup ∧
      ∃ others : List Diagnostic, (∀ d ∈ others, d.kind ≠ .unreachableBlock) ∧
        [.unresolved 1 "i32 %gone", .unreachableBlock "%label_3"] = others ++
          (if deadExample.config.reportUnreachableBlocks then
            deadExample.function.unreachableWarnings else []) ∧
        (deadExample.reporting true).build =
          .ok (g, others ++ deadExample.function.unreachableWarnings) ∧
        (deadExample.reporting false).build = .ok (g, others) := by
  have hwarnings : deadExample.build.toOption.map Prod.snd =
      some [.unresolved 1 "i32 %gone", .unreachableBlock "%label_3"] := by decide +kernel
  have hunreached : deadExample.function.unreachableWarnings = [.unreachableBlock "%label_3"] := by
    decide +kernel
  cases h : deadExample.build with
  | error e => simp [h, Except.toOption] at hwarnings
  | ok r =>
    obtain ⟨g, ds⟩ := r
    obtain rfl : ds = _ := by simpa [h, Except.toOption] using hwarnings
    exact ⟨g, rfl, hunreached, unreachable_warnings_of_build h⟩

end Builder

end InstrGraph

import InstrGraph.Proofs.Graph.Run
import Mathlib.Data.List.Induction

/-!
# When a function has a graph

A function has a graph exactly if it is well-shaped: `Function.WellShaped` says what is asked of its
labels, its ids, and the parts and targets of its instructions, and nothing of the rest.

What is wrong with an instruction depends on those before it and on the labels alone
(`Function.fault?`). So the walk ends at the first instruction with a fault
(`run_of_firstFault`), and the error tells of it.
-/

namespace InstrGraph

/-! ### First places in a list -/

section

variable {α β : Type}

/-- A place in a list with one more item is a place in the list, or the new one. -/
theorem place_of_concat {l pre post : List α} {a x : α} (h : l ++ [x] = pre ++ a :: post) :
    (∃ post', l = pre ++ a :: post') ∨ l = pre ∧ x = a := by
  cases post using List.reverseRecOn with
  | nil => exact Or.inr (by simpa using h)
  | append_singleton post' y =>
    refine Or.inl ⟨post', ?_⟩
    rw [← List.cons_append, ← List.append_assoc] at h
    exact (List.append_inj' h rfl).1

/-- Either nothing in a list is bad, given what comes before it, or there is a first thing that
is. -/
theorem forall_split_or_exists_first (bad : List α → α → Prop) (l : List α) :
    (∀ pre a post, l = pre ++ a :: post → ¬ bad pre a) ∨
      ∃ pre a post, l = pre ++ a :: post ∧ bad pre a ∧
        ∀ p x q, pre = p ++ x :: q → ¬ bad p x := by
  induction l using List.reverseRecOn with
  | nil => exact Or.inl fun pre a post h => by simp at h
  | append_singleton l x ih =>
    rcases ih with hgood | ⟨pre, a, post, rfl, hbad, hfirst⟩
    · by_cases hx : bad l x
      · exact Or.inr ⟨l, x, [], rfl, hx, hgood⟩
      · refine Or.inl fun pre a post h => ?_
        rcases place_of_concat h with ⟨post', h⟩ | ⟨rfl, rfl⟩
        · exact hgood pre a post' h
        · exact hx
    · exact Or.inr ⟨pre, a, post ++ [x], by simp, hbad, hfirst⟩

/-- Items have different images if none has the image of an item before it. -/
theorem nodup_map_iff_split {f : α → β} {l : List α} :
    (l.map f).Nodup ↔ ∀ pre a post, l = pre ++ a :: post → f a ∉ pre.map f := by
  constructor
  · rintro h pre a post rfl hmem
    rw [List.map_append, List.nodup_append] at h
    exact h.2.2 _ hmem _ (by simp) rfl
  · intro h
    induction l using List.reverseRecOn with
    | nil => simp
    | append_singleton l x ih =>
      rw [List.map_append, List.nodup_append]
      refine ⟨ih fun pre a post hl => h pre a (post ++ [x]) (by simp [hl]), by simp, ?_⟩
      rintro y hy z hz rfl
      obtain rfl : y = f x := by simpa using hz
      exact h l x [] rfl hy

end

/-! ### Faults -/

/-- The parts that the opcode of an instruction asks for are there. -/
structure Instruction.Shaped (i : Instruction) : Prop where
  br : i.opcode = .br → (i.targets.length = 1 ∨ i.targets.length = 2) ∧
    (i.targets.length = 2 → i.condition ≠ none)
  switch : i.opcode = .switch → i.condition ≠ none ∧ i.targets ≠ []
  invoke : i.opcode = .invoke → i.targets ≠ []

/-- An instruction without a fault in its shape has the shape of its opcode. -/
theorem Instruction.shapeFault?_eq_none_iff {i : Instruction} :
    i.shapeFault? = none ↔ i.Shaped := by
  rw [shapeFault?]
  constructor
  · intro h
    constructor <;> intro hop <;> simp only [hop] at h <;> grind
  · rintro ⟨hbr, hswitch, hinvoke⟩
    cases hop : i.opcode with
    | br => grind
    | switch => simp [hswitch hop]
    | invoke => simp [hinvoke hop]
    | ret | unreachable | call | other => rfl

instance (i : Instruction) : Decidable i.Shaped :=
  decidable_of_iff (i.shapeFault? = none) Instruction.shapeFault?_eq_none_iff

/-- The labels of blocks, normalized. -/
def labelsOf (blocks : List Block) : List String :=
  blocks.map fun block => Token.normalizeLabel block.label

/-- Labels are different if the nodes of their blocks are. -/
theorem nodup_labelsOf_iff {blocks : List Block} :
    (labelsOf blocks).Nodup ↔ (blocks.map Block.key).Nodup := by
  have hkeys : blocks.map Block.key = (labelsOf blocks).map NodeKey.block := by
    simp [labelsOf, Block.key]
  rw [hkeys]
  exact (List.nodup_map_iff fun _ _ => NodeKey.block.inj).symm

/-- A label is that of a block if the block has a node. -/
theorem mem_labelsOf_iff {blocks : List Block} {label : String} :
    label ∈ labelsOf blocks ↔ .block label ∈ blocks.map Block.key := by
  simp [labelsOf, Block.key]

namespace Function

/-- The labels of the blocks of a function. -/
def labels (f : Function) : List String := labelsOf f.blocks

/-- What a function has to be for its graph to be built. -/
structure WellShaped (f : Function) : Prop where
  labels : f.labels.Nodup
  ids : (f.instructions.map (·.id)).Nodup
  shaped : ∀ i ∈ f.instructions, i.Shaped
  targets : ∀ i ∈ f.instructions, ∀ t ∈ i.successors, Token.normalizeLabel t ∈ f.labels

instance (f : Function) : Decidable f.WellShaped :=
  decidable_of_iff (f.labels.Nodup ∧ (f.instructions.map (·.id)).Nodup ∧
      (∀ i ∈ f.instructions, i.Shaped) ∧
      ∀ i ∈ f.instructions, ∀ t ∈ i.successors, Token.normalizeLabel t ∈ f.labels)
    ⟨fun h => ⟨h.1, h.2.1, h.2.2.1, h.2.2.2⟩,
      fun h => ⟨h.labels, h.ids, h.shaped, h.targets⟩⟩

/-- The first target of an instruction that is no block. -/
def unknownTarget? (f : Function) (i : Instruction) : Option String :=
  i.successors.find? fun t => Token.normalizeLabel t ∉ f.labels

/-- What is wrong with an instruction, given those before it: first its id is looked at, then its
parts, then its targets. -/
def fault? (f : Function) (before : List Instruction) (i : Instruction) : Option Malformation :=
  if i.id ∈ before.map (·.id) then some .duplicateId
  else i.shapeFault?.or ((f.unknownTarget? i).map .unknownTarget)

/-- No instruction of a list has a fault. -/
def Faultless (f : Function) (is : List Instruction) : Prop :=
  ∀ before i after, is = before ++ i :: after → f.fault? before i = none

/-- An instruction is faultless if its id is new, its shape is right and its targets are labels. -/
theorem fault?_eq_none_iff {f : Function} {before : List Instruction} {i : Instruction} :
    f.fault? before i = none ↔ i.id ∉ before.map (·.id) ∧ i.Shaped ∧
      ∀ t ∈ i.successors, Token.normalizeLabel t ∈ f.labels := by
  rw [fault?, ← Instruction.shapeFault?_eq_none_iff, unknownTarget?]
  split_ifs with hid
  · simp [hid]
  · simp [hid, Option.or_eq_none_iff]

/-- A function is well shaped if its labels are different and none of its instructions has a
fault. -/
theorem wellShaped_iff {f : Function} :
    f.WellShaped ↔ f.labels.Nodup ∧ f.Faultless f.instructions := by
  constructor
  · rintro ⟨hlabels, hids, hshaped, htargets⟩
    refine ⟨hlabels, fun before i after hsplit => fault?_eq_none_iff.mpr ⟨?_, ?_, ?_⟩⟩
    · exact nodup_map_iff_split.mp hids before i after hsplit
    · exact hshaped i (by simp [hsplit])
    · exact htargets i (by simp [hsplit])
  · rintro ⟨hlabels, hfaultless⟩
    refine ⟨hlabels, nodup_map_iff_split.mpr fun before i after hsplit => ?_, fun i hi => ?_,
      fun i hi => ?_⟩
    · exact (fault?_eq_none_iff.mp (hfaultless before i after hsplit)).1
    · obtain ⟨before, after, hsplit⟩ := List.append_of_mem hi
      exact (fault?_eq_none_iff.mp (hfaultless before i after hsplit)).2.1
    · obtain ⟨before, after, hsplit⟩ := List.append_of_mem hi
      exact (fault?_eq_none_iff.mp (hfaultless before i after hsplit)).2.2

/-- The error of the first thing that is wrong with a function: labels are looked at before
instructions. An error about a label names the first instruction of the block, and an error about
an instruction quotes it. -/
inductive FirstFault (f : Function) : Error → Prop where
  | label (before after : List Block) (block : Block) (hsplit : f.blocks = before ++ block :: after)
      (hbefore : (labelsOf before).Nodup)
      (hrepeated : Token.normalizeLabel block.label ∈ labelsOf before) :
      FirstFault f (.malformed f.name ((block.instructions.head?.map (·.id)).getD 0) block.label
        Malformation.duplicateLabel.message)
  | instruction (hlabels : f.labels.Nodup) (before after : List Instruction) (i : Instruction)
      (m : Malformation) (hsplit : f.instructions = before ++ i :: after)
      (hbefore : f.Faultless before) (hfault : f.fault? before i = some m) :
      FirstFault f (.malformed f.name i.id i.text m.message)

end Function

namespace Builder

variable {b : Builder} {g₀ g g' : Graph} {s s' s₀ : BuildState} {tracked : List NodeKey}
  {pre events : List Event} {block : Block} {i : Instruction} {m : Malformation}

/-! ### The control of one instruction -/

/-- What is taken does not make blocks. -/
theorem NodeAdded.block_mem_iff (h : NodeAdded tracked i s s₀) (ht : i.isTerminator = true)
    {label : String} (n : Nat) :
    .block label ∈ (b.valueFlow s₀ i n).graph.keys ↔ .block label ∈ s.graph.keys := by
  have hvalues := supplied_valueFlow (b := b) (n := n) h.tracks h.hasWalked ht
  refine ⟨fun hk => ?_, fun hk => hvalues.keys.mem (h.keys_isPrefix.mem hk)⟩
  rcases h.outer hvalues _ hk with hk | hk | ⟨ho, -⟩
  · exact hk
  · simp [Instruction.key] at hk
  · simp [NodeKey.isOuter] at ho

/-- An instruction that may go to an unknown block is refused, and only such a one. -/
theorem NodeAdded.flow_cases (h : NodeAdded tracked i s s₀) (entry : Nat) (blockIds : List UInt32)
    (n : Nat) :
    (∀ t, i.successors.find? (fun t => targetKey t ∉ s.graph.keys) = some t →
      b.flow entry blockIds s₀ i n = .error (.unknownTarget t)) ∧
    (i.successors.find? (fun t => targetKey t ∉ s.graph.keys) = none →
      ∃ s', b.flow entry blockIds s₀ i n = .ok s') := by
  have hfind (s₁ : BuildState)
      (hs : ∀ t, targetKey t ∈ s₁.graph.keys ↔ targetKey t ∈ s.graph.keys) :
      (fun t => decide (targetKey t ∉ s.graph.keys)) =
        fun t => decide (targetKey t ∉ s₁.graph.keys) := by
    funext t
    rw [decide_eq_decide, hs t]
  rw [flow]
  split_ifs with hg ht
  · rw [hfind ((b.valueFlow s₀ i n).connectLeaves n) fun t => ?_]
    · exact ⟨fun t => controlEdges_of_find?_eq_some, exists_controlEdges⟩
    · rw [BuildState.keys_connectLeaves]
      exact h.block_mem_iff (i.isTerminator_of_gathers hg) n
  · rw [hfind (b.valueFlow s₀ i n) fun t => h.block_mem_iff ht n]
    exact ⟨fun t => controlEdges_of_find?_eq_some, exists_controlEdges⟩
  · rw [i.successors_of_not_isTerminator (Bool.eq_false_iff.mpr ht)]
    exact ⟨fun t hfind => by simp at hfind, fun _ => ⟨_, rfl⟩⟩

/-! ### The walk -/

/-- Whether a visit is refused shows in the function. -/
theorem step_cases (hready : Ready b g₀) (hadv : Advances [] pre g₀ s.graph) (block : Block) :
    (∀ m, b.function.fault? (visits pre) i = some m →
      b.step s (.visit block i) = .error (b.malformed i m)) ∧
    (b.function.fault? (visits pre) i = none → ∃ s', b.step s (.visit block i) = .ok s') := by
  have hid : i.key ∈ s.graph.keys ↔ i.id ∈ (visits pre).map (·.id) := by
    rw [Instruction.key, ← Graph.mem_walked, hadv.walked, hready.walked, List.nil_append, visited]
  have htarget (t : String) : targetKey t ∈ s.graph.keys ↔
      Token.normalizeLabel t ∈ b.function.labels := by
    rw [targetKey, hready.block_mem_iff hadv, Function.labels, mem_labelsOf_iff, List.mem_map]
  rw [step, Function.fault?]
  by_cases hmem : i.id ∈ (visits pre).map (·.id)
  · rw [walkInstruction_of_mem (hid.mpr hmem), if_pos hmem]
    exact ⟨fun m hm => by rw [← Option.some.inj hm], fun hm => by simp at hm⟩
  · have hkey : i.key ∉ s.graph.keys := fun hkey => hmem (hid.mp hkey)
    rw [if_neg hmem]
    cases hshape : i.shapeFault? with
    | some m =>
      rw [walkInstruction_of_shapeFault hkey hshape]
      exact ⟨fun m hm => by rw [← Option.some.inj hm], fun hm => by simp at hm⟩
    | none =>
      rw [walkInstruction_of_shaped hkey hshape, Option.none_or, Function.unknownTarget?]
      have hflow := (nodeAdded_withNode (b := b) hadv.tracks hkey).flow_cases (b := b)
        (s.graph.entryOf block) (block.instructions.map (·.id)) s.graph.slots.length
      simp only [htarget] at hflow
      obtain ⟨herror, hok⟩ := hflow
      cases hfind : i.successors.find? fun t =>
        decide (Token.normalizeLabel t ∉ b.function.labels) with
      | none =>
        obtain ⟨s', hs'⟩ := hok hfind
        rw [hs']
        exact ⟨fun m hm => by simp at hm, fun _ => ⟨s', rfl⟩⟩
      | some t =>
        rw [herror t hfind]
        exact ⟨fun m hm => by rw [← Option.some.inj hm], fun hm => by simp at hm⟩

/-- Without faults the walk goes on to the end, by induction on the events from the last one. -/
theorem exists_run_of_faultless (hready : Ready b s.graph)
    (hblocks : ∀ event ∈ events, event.block.key ∈ s.graph.keys)
    (h : b.function.Faultless (visits events)) : ∃ s', b.run s events = .ok s' := by
  induction events using List.reverseRecOn with
  | nil => exact ⟨s, rfl⟩
  | append_singleton pre event ih =>
    rw [visits, List.filterMap_append] at h
    obtain ⟨t, ht⟩ := ih (fun event he => hblocks event (by simp [he]))
      fun before i after hsplit => h before i (after ++ visits [event]) (by
        rw [visits] at hsplit
        simp [hsplit, visits])
    have hadv := run_spec ht hready.tracks fun event he => hblocks event (by simp [he])
    have hstep : ∃ s', b.step t event = .ok s' := by
      cases event with
      | enter block => exact ⟨_, rfl⟩
      | visit block i =>
        exact (step_cases hready hadv block).2 (h _ i [] (by simp [Event.visit?, visits]))
    obtain ⟨s', hs'⟩ := hstep
    exact ⟨s', run_append_eq_ok.mpr ⟨t, ht, run_cons_eq_ok.mpr ⟨s', hs', rfl⟩⟩⟩

/-- The walk ends at the first fault. -/
theorem run_of_firstFault (hready : Ready b s.graph) {before after : List Instruction}
    (hsplit : b.function.instructions = before ++ i :: after)
    (hbefore : b.function.Faultless before) (hm : b.function.fault? before i = some m) :
    b.run s (schedule b.function.blocks) = .error (b.malformed i m) := by
  obtain ⟨pre, block, post, hsched, rfl⟩ := exists_event_of_split hsplit
  have hblocks : ∀ event ∈ pre, event.block.key ∈ s.graph.keys := fun event he =>
    hready.event_blocks event (by simp [hsched, he])
  obtain ⟨t, ht⟩ := exists_run_of_faultless hready hblocks hbefore
  have hstep := (step_cases hready (run_spec ht hready.tracks hblocks) block).1 m hm
  rw [hsched, run_append, ht]
  dsimp only
  rw [run, hstep]

/-! ### The labels -/

/-- A block whose label is new gets its node, and the others follow. -/
theorem addBlocks_cons (h : g.Tracks tracked) (hkey : block.key ∉ g.keys) :
    ∃ g' index, g'.Tracks tracked ∧ g'.keys = g.keys ++ [block.key] ∧ ∀ rest,
      b.addBlocks g (block :: rest) = (b.addBlocks g' rest).map fun r => (r.1, index :: r.2) := by
  refine ⟨_, _, h.ensureNode block.key (.block block.instructions.length), ?_,
    addBlocks_cons_of_not_mem hkey⟩
  rw [Graph.keys_ensureNode, if_neg hkey]

/-- Blocks of different labels can be added. -/
theorem exists_addBlocks {blocks : List Block} (h : g.Tracks tracked)
    (hnodup : (g.keys ++ blocks.map Block.key).Nodup) : ∃ r, b.addBlocks g blocks = .ok r := by
  induction blocks generalizing g with
  | nil => exact ⟨(g, []), rfl⟩
  | cons block rest ih =>
    have hkey : block.key ∉ g.keys := fun hkey =>
      (List.nodup_append.mp hnodup).2.2 _ hkey _ (by simp) rfl
    obtain ⟨g', index, htracks, hkeys, hcons⟩ := addBlocks_cons (b := b) h hkey
    obtain ⟨r, hr⟩ := ih htracks (by simpa [hkeys] using hnodup)
    exact ⟨_, by rw [hcons, hr]; rfl⟩

/-- The first label that comes again is refused. -/
theorem addBlocks_of_firstRepeated {before after : List Block} (h : g.Tracks tracked)
    (hbefore : (g.keys ++ before.map Block.key).Nodup)
    (hrepeated : block.key ∈ g.keys ++ before.map Block.key) :
    b.addBlocks g (before ++ block :: after) = .error (b.duplicateLabel block) := by
  induction before generalizing g with
  | nil => exact addBlocks_cons_of_mem (by simpa using hrepeated) after
  | cons first rest ih =>
    have hkey : first.key ∉ g.keys := fun hkey =>
      (List.nodup_append.mp hbefore).2.2 _ hkey _ (by simp) rfl
    obtain ⟨g', index, htracks, hkeys, hcons⟩ := addBlocks_cons (b := b) h hkey
    rw [List.cons_append, hcons, ih htracks (by simpa [hkeys] using hbefore)
      (by simpa [hkeys] using hrepeated)]
    rfl

/-! ### The build -/

/-- A label that comes again is reported for the first instruction of its block. -/
theorem duplicateLabel_eq (b : Builder) (block : Block) :
    b.duplicateLabel block = .malformed b.function.name
      ((block.instructions.head?.map (·.id)).getD 0) block.label
        Malformation.duplicateLabel.message := by
  rw [duplicateLabel]
  cases block.instructions <;> rfl

/-- Beside the node of the function, blocks have different nodes if their keys are different. -/
theorem nodup_root_keys_iff {blocks : List Block} :
    (b.root.1.keys ++ blocks.map Block.key).Nodup ↔ (blocks.map Block.key).Nodup := by
  rw [b.root_eq.2.1, List.singleton_append, List.nodup_cons]
  exact and_iff_right (by simp [Block.key])

/-- The graph of a function that is well-shaped. -/
theorem exists_build_of_wellShaped (h : b.function.WellShaped) : ∃ r, b.build = .ok r := by
  obtain ⟨hlabels, hfaultless⟩ := Function.wellShaped_iff.mp h
  obtain ⟨⟨g, indices⟩, hadd⟩ := exists_addBlocks (b := b) b.root_eq.1
    (nodup_root_keys_iff.mpr (nodup_labelsOf_iff.mp hlabels))
  obtain ⟨s, hready, hbuild⟩ := build_eq_run hadd
  obtain ⟨s', hs'⟩ := exists_run_of_faultless hready hready.event_blocks
    (by rwa [visits_schedule])
  exact ⟨_, by rw [hbuild, hs']; rfl⟩

/-- A build fails with the first fault of its function. -/
theorem build_of_firstFault {e : Error} (h : b.function.FirstFault e) : b.build = .error e := by
  cases h with
  | label before after block hsplit hbefore hrepeated =>
    rw [build_eq, hsplit, addBlocks_of_firstRepeated b.root_eq.1
      (nodup_root_keys_iff.mpr (nodup_labelsOf_iff.mp hbefore))
      (List.mem_append_right _ (mem_labelsOf_iff.mp hrepeated)), duplicateLabel_eq]
  | instruction hlabels before after i m hsplit hbefore hfault =>
    obtain ⟨⟨g, indices⟩, hadd⟩ := exists_addBlocks (b := b) b.root_eq.1
      (nodup_root_keys_iff.mpr (nodup_labelsOf_iff.mp hlabels))
    obtain ⟨s, hready, hbuild⟩ := build_eq_run hadd
    rw [hbuild, run_of_firstFault hready hsplit hbefore hfault]
    rfl

/-- A function is well-shaped, or something is wrong with it first. -/
theorem wellShaped_or_firstFault (f : Function) : f.WellShaped ∨ ∃ e, f.FirstFault e := by
  rcases forall_split_or_exists_first
    (fun before block => Token.normalizeLabel block.label ∈ labelsOf before) f.blocks with
    hlabels | ⟨before, block, after, hsplit, hrepeated, hbefore⟩
  · have hnodup : f.labels.Nodup := nodup_map_iff_split.mpr hlabels
    rcases forall_split_or_exists_first (fun before i => f.fault? before i ≠ none)
      f.instructions with hgood | ⟨before, i, after, hsplit, hbad, hbefore⟩
    · exact Or.inl (Function.wellShaped_iff.mpr ⟨hnodup, fun before i after hsplit =>
        not_not.mp (hgood before i after hsplit)⟩)
    · obtain ⟨m, hm⟩ := Option.ne_none_iff_exists'.mp hbad
      exact Or.inr ⟨_, .instruction hnodup before after i m hsplit
        (fun p x q hpre => not_not.mp (hbefore p x q hpre)) hm⟩
  · exact Or.inr ⟨_, .label before after block hsplit (nodup_map_iff_split.mpr hbefore) hrepeated⟩

/-- A graph is built exactly from a function that is well-shaped; from any other one comes the
error of the first thing that is wrong with it. -/
theorem build_ok_iff_and_error_iff (b : Builder) :
    ((∃ r, b.build = .ok r) ↔ b.function.WellShaped) ∧
      ∀ e, b.build = .error e ↔ b.function.FirstFault e := by
  refine ⟨⟨fun ⟨r, hr⟩ => ?_, exists_build_of_wellShaped⟩,
    fun e => ⟨fun he => ?_, build_of_firstFault⟩⟩
  · refine (wellShaped_or_firstFault b.function).resolve_right ?_
    rintro ⟨e, he⟩
    simp [build_of_firstFault he] at hr
  · rcases wellShaped_or_firstFault b.function with h | ⟨e', he'⟩
    · obtain ⟨r, hr⟩ := exists_build_of_wellShaped h
      simp [hr] at he
    · rw [build_of_firstFault he', Except.error.injEq] at he
      exact he ▸ he'

end Builder

end InstrGraph

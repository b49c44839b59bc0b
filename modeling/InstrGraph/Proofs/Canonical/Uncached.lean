import InstrGraph.Proofs.Canonical.Cache
import InstrGraph.Proofs.FirstBy
import InstrGraph.Proofs.Symbols.Usage
import Mathlib.Data.List.Forall2

/-!
# The canonical form without a cache

A rewriting without a cache (`RewriteContext.uncached`) runs the passes on every field anew and
notes what they find mentioned in a usage that goes from field to field. It gives the canonical form
of every function (`RewriteContext.function_eq_uncached`): a text never depends on what has been
noted before (`notePasses_eq`), so what is noted in the end is what all fields mention, in their
order (`Notes.mapCarry`).

A usage has one list for each kind of mention. Merging what has been recorded into it puts the new
names behind those that are there, each where it comes first (`Usage.names_merge_recordAll`).
-/

namespace InstrGraph

/-! ### The lists of a usage -/

/-- What is pushed comes behind what is there, without what is there and without repetitions. -/
theorem pushAll_eq (xs ys : List String) :
    pushAll xs ys = xs ++ ys.eraseDups.filter (· ∉ xs) := by
  induction ys using List.reverseRecOn with
  | nil => simp [pushAll]
  | append_singleton ys y ih =>
    have hpush : pushAll xs (ys ++ [y]) = pushUnique (pushAll xs ys) y := List.foldl_append
    rw [hpush, eraseDups_concat]
    -- a name comes in if it has not been pushed before and was not there at first
    by_cases hold : y ∈ ys
    · rw [if_pos hold, pushUnique_eq_self (mem_pushAll.mpr (Or.inr hold)), ih]
    · rw [if_neg hold, List.filter_append, ← List.append_assoc, ← ih]
      by_cases hfirst : y ∈ xs
      · rw [pushUnique_eq_self (mem_pushAll.mpr (Or.inl hfirst))]
        simp [hfirst]
      · have hnew : y ∉ pushAll xs ys := by simp [mem_pushAll, hfirst, hold]
        rw [pushUnique, if_neg (mt List.contains_iff_mem.mp hnew)]
        simp [hfirst]

/-- Pushing names onto none of them drops those that occur again. -/
theorem pushAll_nil (ys : List String) : pushAll [] ys = ys.eraseDups := by
  rw [pushAll_eq]
  simp

/-- The lists of a usage. -/
inductive MentionKind where
  | globals
  | structs
  | calls
  | constants
  deriving DecidableEq, Repr

namespace Mention

/-- The list that a mention goes into. -/
def kind : Mention → MentionKind
  | global _ => .globals
  | struct _ => .structs
  | call _ => .calls
  | constant _ => .constants

/-- What is mentioned. -/
def name : Mention → String
  | global n | struct n | call n | constant n => n

/-- What mentions of a kind are about, in their order. -/
def namesOf (kind : MentionKind) (ms : List Mention) : List String :=
  (ms.filter fun m => m.kind = kind).map name

end Mention

namespace Usage

/-- The list of a kind. -/
def names (u : Usage) : MentionKind → List String
  | .globals => u.globals
  | .structs => u.structs
  | .calls => u.calls
  | .constants => u.constants

/-- Recording two lists of mentions is recording the one and then the other. -/
theorem recordAll_append (u : Usage) (ms ms' : List Mention) :
    u.recordAll (ms ++ ms') = (u.recordAll ms).recordAll ms' := List.foldl_append

/-- A mention that is recorded adds its name to those of its kind, unless it is there. -/
theorem names_record (u : Usage) (m : Mention) (kind : MentionKind) :
    (u.record m).names kind =
      if m.kind = kind then pushUnique (u.names kind) m.name else u.names kind := by
  cases m <;> cases kind <;> rfl

/-- Mentions that are recorded add the names of each kind to those that are there. -/
theorem names_recordAll (u : Usage) (ms : List Mention) (kind : MentionKind) :
    (u.recordAll ms).names kind = pushAll (u.names kind) (Mention.namesOf kind ms) := by
  induction ms generalizing u with
  | nil => rfl
  | cons m ms ih =>
    have hstep : u.recordAll (m :: ms) = (u.record m).recordAll ms := rfl
    rw [hstep, ih, names_record]
    by_cases h : m.kind = kind
    · simp [Mention.namesOf, h, pushAll]
    · simp [Mention.namesOf, h]

/-- Merging usages adds the names of the second one to those of the first. -/
theorem names_merge (u v : Usage) (kind : MentionKind) :
    (u.merge v).names kind = pushAll (u.names kind) (v.names kind) := by
  cases kind <;> rfl

/-- Merging what has been recorded puts the new names behind those that are there. -/
theorem names_merge_recordAll (u : Usage) (ms : List Mention) (kind : MentionKind) :
    (u.merge (({} : Usage).recordAll ms)).names kind =
      u.names kind ++ (Mention.namesOf kind ms).eraseDups.filter (· ∉ u.names kind) := by
  have hempty : ({} : Usage).names kind = [] := by cases kind <;> rfl
  rw [names_merge, names_recordAll, hempty, pushAll_nil, pushAll_eq, eraseDups_eraseDups]

end Usage

/-! ### Mentions that are noted on the way -/

/-- One pass over a text, with what it finds mentioned noted in a usage. -/
def Pass.note (ctx : PassContext) (state : String × Usage) (p : Pass) : String × Usage :=
  let r := p.apply ctx state.1
  (r.text, state.2.recordAll r.mentions)

/-- All passes over a text, with what they find mentioned noted in a usage as they go. -/
def notePasses (ctx : PassContext) (u : Usage) (text : String) : String × Usage :=
  Pass.all.foldl (Pass.note ctx) (text, u)

/-- Passes that note what they mention in a usage do what they do otherwise, with the mentions
recorded. -/
theorem foldl_note (ctx : PassContext) (ps : List Pass) (r : Rewritten) (u : Usage) :
    ps.foldl (Pass.note ctx) (r.text, u.recordAll r.mentions) =
      ((ps.foldl (Pass.step ctx) r).text, u.recordAll (ps.foldl (Pass.step ctx) r).mentions) := by
  induction ps generalizing r with
  | nil => rfl
  | cons p ps ih =>
    rw [List.foldl_cons, List.foldl_cons, ← ih]
    simp only [Pass.note, Pass.step, Usage.recordAll_append]

/-- The text does not depend on the usage, and the usage grows by what the passes mention. -/
theorem notePasses_eq (ctx : PassContext) (u : Usage) (text : String) :
    notePasses ctx u text =
      ((runPasses ctx text).text, u.recordAll (runPasses ctx text).mentions) :=
  foldl_note ctx Pass.all ⟨text, []⟩ u

/-- Work on a value that may be absent, in a state. -/
def carryOption {α β σ : Type} (f : σ → α → β × σ) (s : σ) : Option α → Option β × σ
  | none => (none, s)
  | some a =>
    let (b, s) := f s a
    (some b, s)

/-- One function does with a usage what the other one says: it gives the text and notes the
mentions. -/
def Notes {α : Type} (f : Usage → α → String × Usage) (g : α → Rewritten) : Prop :=
  ∀ u a, f u a = ((g a).text, u.recordAll (g a).mentions)

namespace Notes

variable {α : Type} {f : Usage → α → String × Usage} {g : α → Rewritten}

/-- A list of texts is done with a usage as each of them is. -/
theorem mapCarry (h : Notes f g) (u : Usage) (as : List α) :
    InstrGraph.mapCarry f u as =
      ((as.map g).map Rewritten.text, u.recordAll ((as.map g).flatMap Rewritten.mentions)) := by
  induction as generalizing u with
  | nil => rfl
  | cons a as ih =>
    rw [InstrGraph.mapCarry, h u a]
    dsimp only
    rw [ih, List.map_cons, List.flatMap_cons, Usage.recordAll_append]
    rfl

/-- A text that may be absent is done with a usage as it is if it is there. -/
theorem carryOption (h : Notes f g) (u : Usage) (o : Option α) :
    InstrGraph.carryOption f u o =
      ((o.map g).map Rewritten.text,
        u.recordAll ((o.map g).toList.flatMap Rewritten.mentions)) := by
  cases o with
  | none => rfl
  | some a =>
    rw [InstrGraph.carryOption, h u a]
    simp

end Notes

namespace RewriteContext

/-! ### The canonical form without a cache -/

/-- Rewrite a field. -/
def uncachedField (ctx : RewriteContext) (u : Usage) (raw : String) : String × Usage :=
  notePasses ctx.toPassContext u raw

/-- Rewrite an operand. What one that repeats the text of an instruction mentions is not noted. -/
def uncachedOperand (ctx : RewriteContext) (u : Usage) (raw : String) : String × Usage :=
  if ctx.instructionTexts.contains raw then ((ctx.uncachedField {} raw).1, u)
  else ctx.uncachedField u raw

/-- Rewrite a label. -/
def uncachedLabel (ctx : RewriteContext) (u : Usage) (label : String) : String × Usage :=
  ctx.uncachedField u (Token.normalizeLabel label)

/-- Rewrite an instruction. The usage goes from field to field. -/
def uncachedInstruction (ctx : RewriteContext) (i : Instruction) : Instruction :=
  let (text, u) := ctx.uncachedField {} i.text
  let (operands, u) := mapCarry ctx.uncachedOperand u i.operands
  let (condition, u) := carryOption ctx.uncachedOperand u i.condition
  let (returnValue, u) := carryOption ctx.uncachedOperand u i.returnValue
  let (targets, u) := mapCarry ctx.uncachedLabel u i.targets
  let (callee, u) := carryOption ctx.uncachedField u i.callee
  let (definedVar, u) := carryOption ctx.uncachedField u i.definedVar
  let (returnType, u) := carryOption ctx.uncachedField u i.returnType
  { id := i.id
    opcode := i.opcode
    text, operands, definedVar, condition, targets, callee, returnType, returnValue
    usage := i.usage.merge u }

/-- Rewrite a block. What the label mentions is noted in a usage that is thrown away. -/
def uncachedBlock (ctx : RewriteContext) (scratch : Usage) (b : Block) : Block × Usage :=
  let (label, scratch) := ctx.uncachedLabel scratch b.label
  (⟨label, b.instructions.map ctx.uncachedInstruction⟩, scratch)

/-- Rewrite a function. -/
def uncached (ctx : RewriteContext) (f : Function) : Function :=
  let (params, scratch) := mapCarry ctx.uncachedField {} f.params
  { name := f.name
    params
    blocks := (mapCarry ctx.uncachedBlock scratch f.blocks).1 }

variable (ctx : RewriteContext)

/-- A field rewritten without a cache notes its mentions. -/
theorem notes_uncachedField : Notes ctx.uncachedField ctx.canonicalText :=
  fun u raw => notePasses_eq ctx.toPassContext u raw

/-- A label rewritten without a cache notes its mentions. -/
theorem notes_uncachedLabel : Notes ctx.uncachedLabel ctx.canonicalLabel :=
  fun u label => ctx.notes_uncachedField u (Token.normalizeLabel label)

/-- An operand rewritten without a cache notes its mentions. -/
theorem notes_uncachedOperand : Notes ctx.uncachedOperand ctx.canonicalOperand := by
  intro u raw
  unfold uncachedOperand canonicalOperand
  by_cases h : ctx.instructionTexts.contains raw = true
  · rw [if_pos h, if_pos h, ctx.notes_uncachedField {} raw]
    rfl
  · rw [if_neg h, if_neg h, ctx.notes_uncachedField u raw]

/-- An instruction rewritten without a cache is the canonical one. -/
theorem uncachedInstruction_eq (i : Instruction) :
    ctx.uncachedInstruction i = ctx.canonicalInstruction i := by
  have htext := ctx.notes_uncachedField {} i.text
  have hoperands := ctx.notes_uncachedOperand.mapCarry
  have hoperand := ctx.notes_uncachedOperand.carryOption
  have hlabels := ctx.notes_uncachedLabel.mapCarry
  have hfield := ctx.notes_uncachedField.carryOption
  unfold uncachedInstruction canonicalInstruction canonicalFields
  simp only [htext, hoperands, hoperand, hlabels, hfield, List.flatMap_append,
    Usage.recordAll_append, List.flatMap_singleton]

/-- A block rewritten without a cache is the canonical one. -/
theorem uncachedBlock_eq (scratch : Usage) (b : Block) :
    (ctx.uncachedBlock scratch b).1 = ctx.canonicalBlock b := by
  have hlabel := ctx.notes_uncachedLabel scratch b.label
  unfold uncachedBlock canonicalBlock
  rw [hlabel, funext ctx.uncachedInstruction_eq]

/-- The cache makes no difference. -/
theorem function_eq_uncached (f : Function) : ctx.function f = ctx.uncached f := by
  have hparams := ctx.notes_uncachedField.mapCarry {} f.params
  -- the blocks come out the same whatever the parameters and labels before them mention
  have hblocks (scratch : Usage) : (mapCarry ctx.uncachedBlock scratch f.blocks).1 =
      f.blocks.map ctx.canonicalBlock :=
    (mapCarry_spec (fun _ => True) (fun s b _ => ⟨ctx.uncachedBlock_eq s b, trivial⟩) f.blocks
      trivial).1
  unfold uncached
  rw [function_eq, hparams]
  simp only [hblocks, List.map_map, Function.comp_def]

/-! ### What an instruction becomes -/

/-- What an operand adds to the usage of its instruction. The text of an instruction, whichever it
is, adds nothing. -/
def contribution (ctx : RewriteContext) (raw : String) : List Mention :=
  if raw ∈ ctx.instructionTexts then [] else (ctx.canonicalText raw).mentions

/-- What the fields of an instruction add to its usage, in the order in which they are rewritten. -/
def contributions (ctx : RewriteContext) (i : Instruction) : List Mention :=
  (ctx.canonicalText i.text).mentions ++ i.operands.flatMap ctx.contribution ++
    i.condition.toList.flatMap ctx.contribution ++ i.returnValue.toList.flatMap ctx.contribution ++
    i.targets.flatMap (fun t => (ctx.canonicalLabel t).mentions) ++
    i.callee.toList.flatMap (fun s => (ctx.canonicalText s).mentions) ++
    i.definedVar.toList.flatMap (fun s => (ctx.canonicalText s).mentions) ++
    i.returnType.toList.flatMap (fun s => (ctx.canonicalText s).mentions)

/-- An instruction and what becomes of it. Every operand is rewritten by itself, and the usage has
its old names first and the new ones behind them. -/
structure Rewrites (ctx : RewriteContext) (i i' : Instruction) : Prop where
  operands : i'.operands = i.operands.map fun raw => (ctx.canonicalText raw).text
  condition : i'.condition = i.condition.map fun raw => (ctx.canonicalText raw).text
  returnValue : i'.returnValue = i.returnValue.map fun raw => (ctx.canonicalText raw).text
  usage (kind : MentionKind) : i'.usage.names kind = i.usage.names kind ++
    (Mention.namesOf kind (ctx.contributions i)).eraseDups.filter (· ∉ i.usage.names kind)

/-- What an operand mentions is what it adds to the usage of its instruction. -/
theorem mentions_canonicalOperand (raw : String) :
    (ctx.canonicalOperand raw).mentions = ctx.contribution raw := by
  unfold canonicalOperand contribution
  simp only [List.contains_iff_mem]
  split <;> rfl

/-- What the fields of an instruction mention is what they add to its usage. -/
theorem mentions_canonicalFields (i : Instruction) :
    (ctx.canonicalFields i).flatMap Rewritten.mentions = ctx.contributions i := by
  unfold canonicalFields contributions
  simp only [List.flatMap_append, List.flatMap_singleton, List.flatMap_map, Option.toList_map,
    mentions_canonicalOperand]

/-- The canonical instruction is what an instruction is to become. -/
theorem rewrites_canonicalInstruction (i : Instruction) :
    ctx.Rewrites i (ctx.canonicalInstruction i) where
  operands := by
    simp only [canonicalInstruction, List.map_map, Function.comp_def, text_canonicalOperand]
  condition := by
    simp only [canonicalInstruction, Option.map_map, Function.comp_def, text_canonicalOperand]
  returnValue := by
    simp only [canonicalInstruction, Option.map_map, Function.comp_def, text_canonicalOperand]
  usage kind := by
    rw [← mentions_canonicalFields]
    exact Usage.names_merge_recordAll i.usage _ kind

end RewriteContext

/-- The canonical form of a function is the one without a cache, and each instruction of it is what
becomes of one of the function. -/
theorem canonicalize_uncached (metadata : Metadata) (frequency : FrequencyTables)
    (config : Config.Canonicalize) (f : Function) :
    let ctx := rewriteContext metadata frequency config f
    let canonical := (canonicalize metadata frequency config f).function
    canonical = ctx.uncached f ∧
      List.Forall₂ ctx.Rewrites f.instructions canonical.instructions := by
  intro ctx canonical
  have hcanonical : canonical = ctx.function f := by
    rw [show canonical = _ from congrArg Canonicalized.function (canonicalize_eq ..)]
  refine ⟨?_, ?_⟩
  · rw [hcanonical, ctx.function_eq_uncached]
  · rw [hcanonical, RewriteContext.instructions_function, List.forall₂_map_right_iff,
      List.forall₂_same]
    intro i _
    exact ctx.rewrites_canonicalInstruction i

/-- The first instruction refers to the second one, and the second one to both. -/
def crossReferences : Function :=
  { name := "f"
    blocks := [⟨"0",
      [{ id := 1, opcode := .ofName "add", text := "%a = add i32 7, 9"
         operands := ["%b = load i32, ptr @g", "i32 9"] },
       { id := 2, opcode := .ofName "load", text := "%b = load i32, ptr @g"
         operands := ["%b = load i32, ptr @g", "%a = add i32 7, 9", "ptr @h"]
         usage := { globals := ["@h"] } }]⟩] }

example :
    (canonicalize {} {} {} crossReferences).function.instructions.map
        (fun i => (i.operands, i.usage.globals, i.usage.constants)) =
      [(["%var1 = load i32, ptr @g", "i32 <const>"], [], ["7", "9"]),
       (["%var1 = load i32, ptr @g", "%var0 = add i32 <const>, 9", "ptr @h"], ["@h"], [])] := by
  decide +kernel

end InstrGraph

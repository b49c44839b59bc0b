import InstrGraph.Canonical.Rewrite
import InstrGraph.Proofs.Canonical.Passes

/-!
# The cache never changes a result

The canonical form of a function is worked out with a cache of canonical texts. Whatever the cache
holds was made by the passes (`Faithful`, kept by every step), so looking a text up gives what
rewriting it would give. Field by field the canonical form is therefore a function of the field
alone (`function_eq`): an operand that repeats the text of an instruction is rewritten like that
text and mentions nothing, in whatever order the instructions stand.
-/

namespace InstrGraph

/-- What holds of the state and is kept by every step holds at the end of a list, and then each item
gives what it gives in any such state. -/
theorem mapCarry_spec {α β σ : Type} {f : σ → α → β × σ} {g : α → β} (Inv : σ → Prop)
    (hstep : ∀ s a, Inv s → (f s a).1 = g a ∧ Inv (f s a).2) (as : List α) {s : σ} (hs : Inv s) :
    (mapCarry f s as).1 = as.map g ∧ Inv (mapCarry f s as).2 := by
  induction as generalizing s with
  | nil => exact ⟨rfl, hs⟩
  | cons a as ih =>
    obtain ⟨hout, hinv⟩ := hstep s a hs
    obtain ⟨houts, hinv⟩ := ih hinv
    exact ⟨congrArg₂ List.cons hout houts, hinv⟩

namespace RewriteContext

variable {ctx : RewriteContext} {cache : TextCache}

/-- What becomes of a text. -/
def canonicalText (ctx : RewriteContext) (text : String) : Rewritten :=
  runPasses ctx.toPassContext text

/-- What becomes of an operand. One that repeats the text of an instruction mentions nothing. -/
def canonicalOperand (ctx : RewriteContext) (raw : String) : Rewritten :=
  if ctx.instructionTexts.contains raw then ⟨(ctx.canonicalText raw).text, []⟩
  else ctx.canonicalText raw

/-- An operand is rewritten as any other text. -/
theorem text_canonicalOperand (ctx : RewriteContext) (raw : String) :
    (ctx.canonicalOperand raw).text = (ctx.canonicalText raw).text := by
  unfold canonicalOperand
  split <;> rfl

/-- What becomes of a label. -/
def canonicalLabel (ctx : RewriteContext) (label : String) : Rewritten :=
  ctx.canonicalText (Token.normalizeLabel label)

/-- The fields of an instruction that count for its usage, in their order. -/
def canonicalFields (ctx : RewriteContext) (i : Instruction) : List Rewritten :=
  [ctx.canonicalText i.text] ++ i.operands.map ctx.canonicalOperand ++
    (i.condition.map ctx.canonicalOperand).toList ++
    (i.returnValue.map ctx.canonicalOperand).toList ++
    i.targets.map ctx.canonicalLabel ++
    (i.callee.map ctx.canonicalText).toList ++ (i.definedVar.map ctx.canonicalText).toList ++
    (i.returnType.map ctx.canonicalText).toList

/-- What becomes of an instruction. -/
def canonicalInstruction (ctx : RewriteContext) (i : Instruction) : Instruction where
  id := i.id
  opcode := i.opcode
  text := (ctx.canonicalText i.text).text
  operands := (i.operands.map ctx.canonicalOperand).map Rewritten.text
  definedVar := (i.definedVar.map ctx.canonicalText).map Rewritten.text
  condition := (i.condition.map ctx.canonicalOperand).map Rewritten.text
  targets := (i.targets.map ctx.canonicalLabel).map Rewritten.text
  callee := (i.callee.map ctx.canonicalText).map Rewritten.text
  returnType := (i.returnType.map ctx.canonicalText).map Rewritten.text
  returnValue := (i.returnValue.map ctx.canonicalOperand).map Rewritten.text
  usage := i.usage.merge
    (({} : Usage).recordAll ((ctx.canonicalFields i).flatMap Rewritten.mentions))

/-- A canonical instruction has the id of its source. -/
@[simp] theorem id_canonicalInstruction (ctx : RewriteContext) (i : Instruction) :
    (ctx.canonicalInstruction i).id = i.id := by rw [canonicalInstruction]

/-- A canonical instruction has the opcode of its source. -/
@[simp] theorem opcode_canonicalInstruction (ctx : RewriteContext) (i : Instruction) :
    (ctx.canonicalInstruction i).opcode = i.opcode := by rw [canonicalInstruction]

/-- The targets of a canonical instruction are the canonical labels. -/
@[simp] theorem targets_canonicalInstruction (ctx : RewriteContext) (i : Instruction) :
    (ctx.canonicalInstruction i).targets =
      i.targets.map fun t => (ctx.canonicalLabel t).text := by
  simp only [canonicalInstruction, List.map_map, Function.comp_def]

/-- What becomes of a block. -/
def canonicalBlock (ctx : RewriteContext) (b : Block) : Block where
  label := (ctx.canonicalLabel b.label).text
  instructions := b.instructions.map ctx.canonicalInstruction

/-- The label of a canonical block is the canonical label. -/
@[simp] theorem label_canonicalBlock (ctx : RewriteContext) (b : Block) :
    (ctx.canonicalBlock b).label = (ctx.canonicalLabel b.label).text := by rw [canonicalBlock]

/-- Every text of the cache stands there with what becomes of it. -/
def Faithful (ctx : RewriteContext) (cache : TextCache) : Prop :=
  ∀ raw canonical, (raw, canonical) ∈ cache → canonical = (ctx.canonicalText raw).text

/-- An empty cache is faithful. -/
theorem faithful_nil (ctx : RewriteContext) : ctx.Faithful [] := by simp [Faithful]

/-- A cache stays faithful with one more text and what becomes of it. -/
theorem Faithful.cons (h : ctx.Faithful cache) (raw : String) :
    ctx.Faithful ((raw, (ctx.canonicalText raw).text) :: cache) := by
  intro r c hmem
  rcases List.mem_cons.mp hmem with heq | hmem
  · obtain ⟨rfl, rfl⟩ := Prod.mk.inj heq
    rfl
  · exact h r c hmem

/-- An operand is rewritten with a faithful cache as without, and the cache stays faithful. -/
theorem operand_spec (h : ctx.Faithful cache) (raw : String) :
    (ctx.operand cache raw).1 = ctx.canonicalOperand raw ∧
      ctx.Faithful (ctx.operand cache raw).2 := by
  unfold operand canonicalOperand
  split
  · cases hlookup : cache.lookup raw with
    | some done =>
      rw [h raw done (mem_of_lookup_eq_some hlookup)]
      exact ⟨rfl, h⟩
    | none => exact ⟨rfl, h.cons raw⟩
  · exact ⟨rfl, h⟩

/-- An operand that may be absent is rewritten with a faithful cache as without. -/
theorem operand?_spec (h : ctx.Faithful cache) (raw : Option String) :
    (ctx.operand? cache raw).1 = raw.map ctx.canonicalOperand ∧
      ctx.Faithful (ctx.operand? cache raw).2 := by
  cases raw with
  | none => exact ⟨rfl, h⟩
  | some raw =>
    obtain ⟨hout, hcache⟩ := operand_spec h raw
    exact ⟨congrArg some hout, hcache⟩

/-- An instruction is rewritten with a faithful cache as without, and the cache stays faithful. -/
theorem instruction_spec (h : ctx.Faithful cache) (i : Instruction) :
    (ctx.instruction cache i).1 = ctx.canonicalInstruction i ∧
      ctx.Faithful (ctx.instruction cache i).2 := by
  unfold instruction
  dsimp only
  -- the text of the instruction itself is put into the cache first
  have htext : ctx.Faithful (if (cache.lookup i.text).isSome then cache
      else (i.text, (runPasses ctx.toPassContext i.text).text) :: cache) := by
    split
    · exact h
    · exact h.cons i.text
  generalize (if (cache.lookup i.text).isSome then cache
      else (i.text, (runPasses ctx.toPassContext i.text).text) :: cache) = start at htext ⊢
  obtain ⟨hoperands, hcache⟩ :=
    mapCarry_spec ctx.Faithful (fun _ raw hs => operand_spec hs raw) i.operands htext
  obtain ⟨hcondition, hcache⟩ := operand?_spec hcache i.condition
  obtain ⟨hvalue, hcache⟩ := operand?_spec hcache i.returnValue
  refine ⟨?_, hcache⟩
  rw [hoperands, hcondition, hvalue]
  rfl

/-- A block is rewritten with a faithful cache as without, and the cache stays faithful. -/
theorem block_spec (h : ctx.Faithful cache) (b : Block) :
    (ctx.block cache b).1 = ctx.canonicalBlock b ∧ ctx.Faithful (ctx.block cache b).2 := by
  obtain ⟨hout, hcache⟩ :=
    mapCarry_spec ctx.Faithful (fun _ i hs => instruction_spec hs i) b.instructions h
  exact ⟨congrArg (Block.mk _) hout, hcache⟩

/-- The canonical form of a function, field by field. -/
theorem function_eq (ctx : RewriteContext) (f : Function) :
    ctx.function f =
      { name := f.name
        params := f.params.map fun p => (ctx.canonicalText p).text
        blocks := f.blocks.map ctx.canonicalBlock } := by
  have hblocks := (mapCarry_spec ctx.Faithful (fun _ b hs => block_spec hs b) f.blocks
    (faithful_nil ctx)).1
  rw [function, hblocks]
  rfl

/-- The instructions of a canonical function are the canonical ones, in order. -/
theorem instructions_function (ctx : RewriteContext) (f : Function) :
    (ctx.function f).instructions = f.instructions.map ctx.canonicalInstruction := by
  rw [function_eq]
  simp only [Function.instructions, List.flatMap_map, List.map_flatMap]
  rfl

end RewriteContext

/-- Where the texts of a function are rewritten. -/
def rewriteContext (metadata : Metadata) (frequency : FrequencyTables)
    (config : Config.Canonicalize) (f : Function) : RewriteContext :=
  { passContext metadata frequency config f with
    instructionTexts := f.instructions.map (·.text) }

/-- Canonicalization rewrites the function with the tables and warnings that are collected from
it. -/
theorem canonicalize_eq (metadata : Metadata) (frequency : FrequencyTables)
    (config : Config.Canonicalize) (f : Function) :
    canonicalize metadata frequency config f =
      ⟨(rewriteContext metadata frequency config f).function f,
        (collectSymbols metadata frequency config f).1,
        (collectSymbols metadata frequency config f).2⟩ := rfl

end InstrGraph

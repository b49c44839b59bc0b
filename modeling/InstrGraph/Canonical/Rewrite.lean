import InstrGraph.Canonical.Pass
import InstrGraph.Carry
import InstrGraph.Symbols.Collect

/-!
# The canonical form of a function

Every field of every instruction goes through the same passes. An operand, condition or return
value that repeats the full text of some instruction of the function stands for that instruction:
its canonical text is looked up, and what it mentions counts for the instruction and not for the
place that refers to it. A cache holds the canonical texts that have been worked out so far; it
grows while the instructions are rewritten in order, and also when an operand refers ahead.
-/

namespace InstrGraph

/-- Instruction texts with their canonical texts. -/
abbrev TextCache := List (String × String)

/-- What the rewriting of one function looks things up in. -/
structure RewriteContext extends PassContext where
  /-- The texts of all instructions of the function. -/
  instructionTexts : List String

namespace RewriteContext

/-- Rewrite an operand. -/
def operand (ctx : RewriteContext) (cache : TextCache) (raw : String) : Rewritten × TextCache :=
  if ctx.instructionTexts.contains raw then
    match cache.lookup raw with
    | some done => (⟨done, []⟩, cache)
    | none =>
      let canonical := (runPasses ctx.toPassContext raw).text
      (⟨canonical, []⟩, (raw, canonical) :: cache)
  else (runPasses ctx.toPassContext raw, cache)

/-- Rewrite an operand that may be absent. -/
def operand? (ctx : RewriteContext) (cache : TextCache) :
    Option String → Option Rewritten × TextCache
  | none => (none, cache)
  | some raw =>
    let (r, cache) := ctx.operand cache raw
    (some r, cache)

/-- Rewrite an instruction. Its usage grows by what its fields mention, in the order text,
operands, condition, return value, targets, callee, defined variable, return type. -/
def instruction (ctx : RewriteContext) (cache : TextCache) (i : Instruction) :
    Instruction × TextCache :=
  let run := runPasses ctx.toPassContext
  let text := run i.text
  let cache := if (cache.lookup i.text).isSome then cache else (i.text, text.text) :: cache
  let (operands, cache) := mapCarry ctx.operand cache i.operands
  let (condition, cache) := ctx.operand? cache i.condition
  let (returnValue, cache) := ctx.operand? cache i.returnValue
  let targets := i.targets.map fun t => run (Token.normalizeLabel t)
  let callee := i.callee.map run
  let definedVar := i.definedVar.map run
  let returnType := i.returnType.map run
  let fields : List Rewritten :=
    [text] ++ operands ++ condition.toList ++ returnValue.toList ++ targets ++ callee.toList ++
      definedVar.toList ++ returnType.toList
  let mentioned : Usage := ({} : Usage).recordAll (fields.flatMap Rewritten.mentions)
  ({ id := i.id
     opcode := i.opcode
     text := text.text
     operands := operands.map Rewritten.text
     definedVar := definedVar.map Rewritten.text
     condition := condition.map Rewritten.text
     targets := targets.map Rewritten.text
     callee := callee.map Rewritten.text
     returnType := returnType.map Rewritten.text
     returnValue := returnValue.map Rewritten.text
     usage := i.usage.merge mentioned }, cache)

/-- Rewrite a block. -/
def block (ctx : RewriteContext) (cache : TextCache) (b : Block) : Block × TextCache :=
  let (instructions, cache) := mapCarry ctx.instruction cache b.instructions
  (⟨(runPasses ctx.toPassContext (Token.normalizeLabel b.label)).text, instructions⟩, cache)

/-- Rewrite a function. -/
def function (ctx : RewriteContext) (f : Function) : Function where
  name := f.name
  params := f.params.map fun p => (runPasses ctx.toPassContext p).text
  blocks := (mapCarry ctx.block [] f.blocks).1

end RewriteContext

/-- A canonical function with the tables that made it and the warnings on the way. -/
structure Canonicalized where
  function : Function
  symbols : SymbolTables
  diagnostics : List Diagnostic
  deriving DecidableEq, Repr

/-- Bring a function into canonical form. -/
def canonicalize (metadata : Metadata) (frequency : FrequencyTables)
    (config : Config.Canonicalize) (f : Function) : Canonicalized :=
  let (symbols, diagnostics) := collectSymbols metadata frequency config f
  let ctx : RewriteContext :=
    { symbols, metadata, frequency, config, instructionTexts := f.instructions.map (·.text) }
  ⟨ctx.function f, symbols, diagnostics⟩

end InstrGraph

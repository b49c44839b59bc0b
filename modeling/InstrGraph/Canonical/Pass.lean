import InstrGraph.Function
import InstrGraph.Metadata
import InstrGraph.Symbols.Frequency
import InstrGraph.Symbols.Tables

/-!
# The passes over one text

Eight passes bring a text into canonical form. The first strips annotations and the last hides
constants; each of the six between them looks at one identifier at a time and says what it becomes
and what is mentioned by it. A pass returns the new text together with the mentions, so a text
never depends on what was mentioned before.

`runPasses` is all eight in their order.
-/

namespace InstrGraph

/-- What the passes over the texts of one function look things up in. -/
structure PassContext where
  symbols : SymbolTables
  metadata : Metadata
  frequency : FrequencyTables
  config : Config.Canonicalize

/-- The passes. -/
inductive Pass where
  | stripAnnotations
  | structSuffixes
  | globals
  | structs
  | calls
  | labels
  | locals
  | constants
  deriving DecidableEq, Repr

/-- A text after a pass, and what the pass found mentioned in it. -/
structure Rewritten where
  text : String
  mentions : List Mention := []
  deriving DecidableEq, Repr

namespace PassContext

/-- A constant that is written out: a common one, or one that is always literal. -/
def keepsConstant (ctx : PassContext) (value : String) : Bool :=
  ctx.frequency.isCommonConstant value ||
    (match Token.int? value with
      | some v => ctx.config.alwaysLiteral.contains v
      | none => false)

end PassContext

namespace Pass

/-- The passes in the order in which they run. -/
def all : List Pass :=
  [stripAnnotations, structSuffixes, globals, structs, calls, labels, locals, constants]

/-- The name of a pass. -/
def name : Pass → String
  | stripAnnotations => "strip_annotations"
  | structSuffixes => "struct_suffixes"
  | globals => "globals"
  | structs => "structs"
  | calls => "calls"
  | labels => "labels"
  | locals => "locals"
  | constants => "constants"

/-- What a pass makes of an identifier, unless it leaves it alone. -/
def rename? (ctx : PassContext) : Pass → String → Option String
  | structSuffixes, t =>
    let base := Token.stripSuffix t
    if Token.isLocal t && (Token.isStructLike base || ctx.metadata.hasStruct base) && base ≠ t then
      some base
    else none
  | globals, t =>
    if Token.isGlobal t && ctx.metadata.hasGlobal t then ctx.symbols.globals.bind (·.get? t)
    else none
  | structs, t => (ctx.symbols.structs.get? t).filter (· ≠ t)
  | calls, t => (ctx.symbols.calls.get? t).filter (· ≠ t)
  | labels, t => ctx.symbols.labels.get? t
  | locals, t =>
    match ctx.symbols.params.get? t with
    | some n => some n
    | none => ctx.symbols.vars.get? t
  | stripAnnotations, _ | constants, _ => none

/-- What an identifier mentions, as far as a pass looks after it. -/
def mention? (ctx : PassContext) : Pass → String → Option Mention
  | globals, t =>
    if Token.isGlobal t && ctx.metadata.hasGlobal t then some (.global t) else none
  | structs, t =>
    match ctx.symbols.structs.get? t with
    | some n => if n = t then none else some (.struct t)
    | none => none
  | calls, t =>
    match ctx.symbols.calls.get? t with
    | some n => if n = t then none else some (.call t)
    | none => if ctx.symbols.isExemptCall t then some (.call t) else none
  | _, _ => none

/-- A pass that looks at one identifier at a time. -/
def applyToSymbols (ctx : PassContext) (p : Pass) (text : String) : Rewritten :=
  ⟨Token.rewrite (p.rename? ctx) text, (Token.symbols text).filterMap (p.mention? ctx)⟩

/-- Hide the immediates of one form that are not kept. -/
def hideForm (ctx : PassContext) (form : Text.ImmediateForm) (text : String) : Rewritten :=
  ⟨Token.onString (Text.hideImmediates form (fun v => ctx.keepsConstant (String.ofList v))
      ctx.config.constantPlaceholder.toList) text,
    (Text.immediates form text.toList).map fun m => .constant (String.ofList m.value)⟩

/-- Hide the typed immediates, then those in attributes. -/
def hideConstants (ctx : PassContext) (text : String) : Rewritten :=
  let typed := hideForm ctx .typed text
  let rest := hideForm ctx .dereferenceable typed.text
  ⟨rest.text, typed.mentions ++ rest.mentions⟩

/-- One pass over a text. -/
def apply (ctx : PassContext) (p : Pass) (text : String) : Rewritten :=
  match p with
  | stripAnnotations => ⟨Token.stripAnnotations text, []⟩
  | constants => hideConstants ctx text
  | _ => applyToSymbols ctx p text

/-- One more pass behind what earlier ones made. -/
def step (ctx : PassContext) (r : Rewritten) (p : Pass) : Rewritten :=
  let next := p.apply ctx r.text
  ⟨next.text, r.mentions ++ next.mentions⟩

end Pass

/-- All passes over a text, in their order. -/
def runPasses (ctx : PassContext) (text : String) : Rewritten :=
  Pass.all.foldl (Pass.step ctx) ⟨text, []⟩

end InstrGraph

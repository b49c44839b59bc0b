import InstrGraph.Function
import InstrGraph.Metadata
import InstrGraph.Symbols.Tables

/-!
# What an operand stands for

An operand is classified by its text alone. It may repeat the text of an instruction, or name a
variable, a parameter or what is called in its last word; else its identifiers are looked at from
left to right, and the first one with a meaning decides. What is left is a constant, a label, an
unknown function, or nothing at all.
-/

namespace InstrGraph

/-- The meanings of an operand. -/
inductive Operand where
  | instruction (id : UInt32)
  | parameter (name : String)
  /-- A global by its canonical name. -/
  | global (name : String)
  | constant (text : String)
  | callTarget (name : String)
  | label (name : String)
  | unresolved
  deriving DecidableEq, Repr

/-- What operands of a function are looked up in. -/
structure Resolver where
  /-- The instructions by their texts, the first of a text in front. -/
  texts : List (String × UInt32)
  /-- The instructions by the variables they define, the first of a variable in front. -/
  vars : List (String × UInt32)
  params : List String
  labels : List String
  /-- The canonical names of the globals. -/
  globals : List String
  /-- What stands for a hidden constant. -/
  placeholder : String
  deriving Repr

/-- The name of an aggregate type, before renaming or after it. -/
def isTypeName (token : String) : Bool :=
  Token.startsWith token "%struct" || Token.startsWith token "%class." ||
    Token.startsWith token "%union."

/-- A local identifier that is no type. Where nothing else is known of it, it is unresolved. -/
def isValueName (token : String) : Bool := !Token.isGlobal token && !isTypeName token

/-- The name of a global with its sigil. -/
def withSigil (name : String) : String := if Token.isGlobal name then name else "@" ++ name

namespace Resolver

/-- The resolver of a canonical function. -/
def ofFunction (f : Function) (symbols : SymbolTables) (metadata : Metadata)
    (placeholder : String) : Resolver where
  texts := f.instructions.map fun i => (i.text, i.id)
  vars := f.instructions.filterMap fun i => i.resultVar?.map fun v => (v, i.id)
  params := f.paramNames
  labels := f.blocks.map Block.label
  globals := metadata.globals.map fun g => symbols.canonicalGlobal (withSigil g.1)
  placeholder := placeholder

/-- The name is a parameter. -/
def isParam (r : Resolver) (name : String) : Bool := r.params.contains name

/-- An identifier that decides what its operand stands for. -/
def known? (r : Resolver) (token : String) : Option Operand :=
  match r.vars.lookup token with
  | some id => some (.instruction id)
  | none =>
    if r.isParam token then some (.parameter token)
    else if r.globals.contains token then some (.global token)
    else none

/-- What an operand stands for if none of its identifiers decides it. -/
def classifyRest (r : Resolver) (tokens : List String) (last : String) : Operand :=
  if last == r.placeholder || Token.isLiteral last then .constant last
  else
    match tokens.find? r.labels.contains with
    | some label => .label label
    | none =>
      match tokens.find? Token.isGlobal with
      | some name => .callTarget name
      | none => if tokens.any isValueName then .unresolved else .constant last

/-- What an operand stands for, in an instruction that calls `callee`. -/
def classify (r : Resolver) (operand : String) (callee : Option String) : Operand :=
  let operand := Token.trim operand
  match r.texts.lookup operand with
  | some id => .instruction id
  | none =>
    let last := Token.last operand
    match r.vars.lookup last with
    | some id => .instruction id
    | none =>
      if r.isParam last then .parameter last
      else if callee == some last then .callTarget last
      else
        let tokens := Token.symbols operand
        match tokens.findSome? r.known? with
        | some known => known
        | none => r.classifyRest tokens last

end Resolver

end InstrGraph

import InstrGraph.Token
import InstrGraph.Usage

/-!
# Instruction records

An `Opcode` is one of the opcodes that the graph treats in their own way, or any other opcode by
name. An `Instruction` is one record of a function: its text, the operands and the parts that a
terminator or a call has, as raw strings.
-/

namespace InstrGraph

/-- An instruction opcode. `other` carries the name of every opcode without a rule of its own. -/
inductive Opcode where
  | ret
  | br
  | switch
  | unreachable
  | invoke
  | call
  | other (name : String)
  deriving DecidableEq, Repr

namespace Opcode

/-- The opcode of a name, blanks around the name ignored. -/
def ofName (name : String) : Opcode :=
  match Token.trim name with
  | "ret" => ret
  | "br" => br
  | "switch" => switch
  | "unreachable" => unreachable
  | "invoke" => invoke
  | "call" => call
  | trimmed => other trimmed

/-- The name of an opcode. -/
def name : Opcode → String
  | ret => "ret"
  | br => "br"
  | switch => "switch"
  | unreachable => "unreachable"
  | invoke => "invoke"
  | call => "call"
  | other n => n

/-- The opcodes that end a block. -/
def isTerminator : Opcode → Bool
  | ret | br | switch | unreachable | invoke => true
  | call | other _ => false

end Opcode

/-- One instruction of a function. -/
structure Instruction where
  /-- Unique within the function, increasing in the order of the text. -/
  id : UInt32
  opcode : Opcode
  text : String
  /-- The raw operands, in the order of the text. -/
  operands : List String := []
  definedVar : Option String := none
  /-- What a `br` or `switch` decides by. -/
  condition : Option String := none
  /-- The labels a `br`, `switch` or `invoke` may go to. -/
  targets : List String := []
  /-- What a `call` or `invoke` calls. -/
  callee : Option String := none
  returnType : Option String := none
  /-- The operand of a `ret`, `void` if it has none. -/
  returnValue : Option String := none
  usage : Usage := {}
  deriving DecidableEq, Repr

namespace Instruction

/-- The text before the first equals sign, if there is one. -/
def assigned? (text : String) : Option String :=
  let cs := text.toList
  let left := cs.takeWhile (· ≠ '=')
  if left.length < cs.length then some (String.ofList left) else none

/-- The variable an instruction assigns: the one it declares, or else the local name in front of
the equals sign of its text. -/
def resultVar? (i : Instruction) : Option String :=
  match i.definedVar with
  | some v =>
    let v := Token.trim v
    if v.isEmpty then none else some v
  | none =>
    match assigned? i.text with
    | some left =>
      let v := Token.trim left
      if Token.isLocal v && !v.toList.any Text.isBlank then some v else none
    | none => none

/-- The name of what is called, without type words in front of it. -/
def calleeName? (i : Instruction) : Option String :=
  match i.callee with
  | some c =>
    let n := Token.last c
    if n.isEmpty then none else some n
  | none => none

/-- The instruction ends a block. -/
def isTerminator (i : Instruction) : Bool := i.opcode.isTerminator

end Instruction

end InstrGraph

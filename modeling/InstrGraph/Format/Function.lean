import InstrGraph.Function
import InstrGraph.Json.Fields

/-!
# Functions as JSON

The forms in which summaries hold functions and the canonical files hold canonical functions. What
is empty or absent is left out, except the name, the lists of a function and of a block, and the
opcode, text and operands of an instruction. The four derived sets of a canonical function stand
behind the members of the function, always.
-/

namespace InstrGraph

open Json (required withDefault nullable? list? string?)

namespace Usage

/-- The members of a usage that are not empty. -/
def toJson (u : Usage) : Json :=
  .object <| Json.memberIfAny "globals" u.globals ++ Json.memberIfAny "structs" u.structs ++
    Json.memberIfAny "calls" u.calls ++ Json.memberIfAny "constants" u.constants

/-- A usage, any of its lists left out. -/
def ofJson? (j : Json) : Option Usage :=
  match j.fields? [["globals"], ["structs"], ["calls"], ["constants"]] with
  | some [globals, structs, calls, constants] => do
    let globals ← withDefault [] (list? string?) globals
    let structs ← withDefault [] (list? string?) structs
    let calls ← withDefault [] (list? string?) calls
    let constants ← withDefault [] (list? string?) constants
    return ⟨globals, structs, calls, constants⟩
  | _ => none

end Usage

namespace Instruction

/-- The members of an instruction, in the order in which they are written. -/
def toJson (i : Instruction) : Json :=
  .object <|
    [("id", .int i.id.toNat), ("opcode", .string i.opcode.name), ("text", .string i.text),
      ("operands", Json.strings i.operands)] ++
    Json.memberIfSome "defined_var" i.definedVar ++
    Json.memberIfSome "condition" i.condition ++
    Json.memberIfAny "targets" i.targets ++
    Json.memberIfSome "callee" i.callee ++
    Json.memberIfSome "return_type" i.returnType ++
    Json.memberIfSome "return_value" i.returnValue ++
    (if i.usage.isEmpty then [] else [("usage", i.usage.toJson)])

/-- The names of the fields of an instruction, in order. -/
def fieldNames : List (List String) :=
  [["id"], ["opcode"], ["text"], ["operands"], ["defined_var"], ["condition"], ["targets"],
    ["callee"], ["return_type"], ["return_value"], ["usage"]]

/-- An instruction; only its id, opcode and text must be there. -/
def ofJson? (j : Json) : Option Instruction :=
  match j.fields? fieldNames with
  | some [id, opcode, text, operands, definedVar, condition, targets, callee, returnType,
      returnValue, usage] => do
    let id ← required Json.word32? id
    let opcode ← required string? opcode
    let text ← required string? text
    let operands ← withDefault [] (list? string?) operands
    let definedVar ← withDefault none (nullable? string?) definedVar
    let condition ← withDefault none (nullable? string?) condition
    let targets ← withDefault [] (list? string?) targets
    let callee ← withDefault none (nullable? string?) callee
    let returnType ← withDefault none (nullable? string?) returnType
    let returnValue ← withDefault none (nullable? string?) returnValue
    let usage ← withDefault {} Usage.ofJson? usage
    return { id, opcode := Opcode.ofName opcode, text, operands, definedVar, condition, targets,
             callee, returnType, returnValue, usage }
  | _ => none

end Instruction

namespace Block

/-- The members of a block. -/
def toJson (b : Block) : Json :=
  .object [("label", .string b.label), ("instructions", .array (b.instructions.map (·.toJson)))]

/-- A block; its instructions may be left out. -/
def ofJson? (j : Json) : Option Block :=
  match j.fields? [["label"], ["instructions"]] with
  | some [label, instructions] => do
    let label ← required string? label
    let instructions ← withDefault [] (list? Instruction.ofJson?) instructions
    return ⟨label, instructions⟩
  | _ => none

end Block

namespace Function

/-- The members of a function, in the order in which they are written. -/
def members (f : Function) : List (String × Json) :=
  [("name", .string f.name), ("params", Json.strings f.params),
    ("blocks", .array (f.blocks.map (·.toJson)))]

/-- A function as an object. -/
def toJson (f : Function) : Json := .object f.members

/-- The names of the fields of a function, in order. -/
def fieldNames : List (List String) := [["name"], ["params"], ["blocks"]]

/-- A function; its parameters and blocks may be left out. -/
def ofFields? : List (Option Json) → Option Function
  | [name, params, blocks] => do
    let name ← required string? name
    let params ← withDefault [] (list? string?) params
    let blocks ← withDefault [] (list? Block.ofJson?) blocks
    return ⟨name, params, blocks⟩
  | _ => none

/-- A function; its parameters and blocks may be left out. -/
def ofJson? (j : Json) : Option Function := (j.fields? fieldNames).bind ofFields?

/-- The functions of a summary. -/
def summaryOfJson? (j : Json) : Option (List Function) := list? ofJson? j

end Function

namespace UsedSets

/-- The members of the derived sets, in the order in which they are written. -/
def members (s : UsedSets) : List (String × Json) :=
  [("globals_referenced", Json.strings s.globals), ("structs_referenced", Json.strings s.structs),
    ("calls_made", Json.strings s.calls), ("constants_seen", Json.strings s.constants)]

/-- The names of the derived sets, in order. -/
def fieldNames : List (List String) :=
  [["globals_referenced"], ["structs_referenced"], ["calls_made"], ["constants_seen"]]

/-- The derived sets, all of them. -/
def ofFields? : List (Option Json) → Option UsedSets
  | [globals, structs, calls, constants] => do
    let globals ← required (list? string?) globals
    let structs ← required (list? string?) structs
    let calls ← required (list? string?) calls
    let constants ← required (list? string?) constants
    return ⟨globals, structs, calls, constants⟩
  | _ => none

end UsedSets

namespace CanonicalFunction

/-- The members of the function, then the derived sets. -/
def toJson (c : CanonicalFunction) : Json := .object (c.function.members ++ c.sets.members)

/-- A canonical function. Both parts share one object, so every member of it is read, those
without a meaning too. -/
def ofJson? (j : Json) : Option CanonicalFunction :=
  match j with
  | .object _ =>
    if j.readable Json.depthLimit then do
      let function ← (j.fields? Function.fieldNames).bind Function.ofFields?
      let sets ← (j.fields? UsedSets.fieldNames).bind UsedSets.ofFields?
      return ⟨function, sets⟩
    else none
  | _ => none

end CanonicalFunction

end InstrGraph

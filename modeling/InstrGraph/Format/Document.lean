import InstrGraph.Document
import InstrGraph.Format.Metadata

/-!
# Documents as JSON

The attributes of a node are an object whose first member `type` tells what the node stands for.
The nodes are described in one object, in their order; a name may occur twice in it.
-/

namespace InstrGraph

open Json (required string? list?)

namespace NodeAttrs

/-- The members of the attributes, in the order in which they are written. -/
def toJson : NodeAttrs → Json
  | function paramCount blockCount =>
    .object [("type", .string "function"), ("num_params", .int paramCount),
      ("bb_num", .int blockCount)]
  | block count => .object [("type", .string "block"), ("block_inst_count", .int count)]
  | instruction text opcode usesParam =>
    .object [("type", .string "instruction"), ("instruction", .string text),
      ("opcode", .string opcode), ("uses_param", .bool usesParam)]
  | parameter definition =>
    .object [("type", .string "function_param"), ("define", .string definition)]
  | global definition globalType value linkage valueLens =>
    .object [("type", .string "global"), ("define", .string definition),
      ("global_type", .string globalType.name), ("value", value), ("linkage", .string linkage),
      ("value_lens", valueLens)]

/-- The class of a global. A word as an object may also give it an empty object here. -/
def globalType? : Json → Option GlobalType
  | .object [(word, .object [])] => some (GlobalType.ofName word)
  | j => GlobalType.ofJson? j

/-- The attributes of a kind of node, out of the rest of their object or array. -/
def ofRest? (type : String) (rest : Json) : Option NodeAttrs :=
  match type with
  | "function" =>
    match rest.fields? [["num_params"], ["bb_num"]] with
    | some [paramCount, blockCount] => do
      return function (← required Json.word64? paramCount) (← required Json.word64? blockCount)
    | _ => none
  | "block" =>
    match rest.fields? [["block_inst_count"]] with
    | some [count] => do return block (← required Json.word64? count)
    | _ => none
  | "instruction" =>
    match rest.fields? [["instruction"], ["opcode"], ["uses_param"]] with
    | some [text, opcode, usesParam] => do
      return instruction (← required string? text) (← required string? opcode)
        (← required Json.bool? usesParam)
    | _ => none
  | "function_param" =>
    match rest.fields? [["define"]] with
    | some [definition] => do return parameter (← required string? definition)
    | _ => none
  | "global" =>
    match rest.fields? [["define"], ["global_type"], ["value"], ["linkage"], ["value_lens"]] with
    | some [definition, globalType, value, linkage, valueLens] => do
      return global (← required string? definition) (← required globalType? globalType)
        (← value).normal (← required string? linkage) (← valueLens).normal
    | _ => none
  | _ => none

/-- Attributes that stand below `above` objects of their text. The kind of node is the member
`type` of an object or the first item of an array, and every other member is read, those without
a meaning too. -/
def ofJson? (above : Nat) (j : Json) : Option NodeAttrs :=
  if j.readable (Json.depthLimit - above) then
    match j with
    | .object members =>
      match members.filter fun m => m.1 == "type" with
      | [(_, .string type)] => ofRest? type (.object (members.filter fun m => m.1 != "type"))
      | _ => none
    | .array (.string type :: rest) => ofRest? type (.array rest)
    | _ => none
  else none

end NodeAttrs

namespace Link

/-- A link as a list of three words. -/
def toJson (l : Link) : Json :=
  .array [.string l.source, .string l.target, .string l.kind.name]

/-- A link as a list of three words. -/
def ofJson? : Json → Option Link
  | .array [source, target, kind] => do
    return ⟨← source.string?, ← target.string?, ← EdgeKind.ofName? (← kind.word?)⟩
  | _ => none

end Link

namespace Document

/-- The members of a document, in the order in which they are written. -/
def toJson (d : Document) : Json :=
  .object [("function_name", .string d.functionName), ("nodes", Json.strings d.nodes),
    ("links", .array (d.links.map (·.toJson))),
    ("nodes_info", .object (d.nodesInfo.map fun (id, attrs) => (id, attrs.toJson)))]

/-- A document, all of its fields there. -/
def ofJson? (j : Json) : Option Document :=
  match j.fields? [["function_name"], ["nodes"], ["links"], ["nodes_info"]] with
  | some [functionName, nodes, links, nodesInfo] => do
    let functionName ← required string? functionName
    let nodes ← required (list? string?) nodes
    let links ← required (list? Link.ofJson?) links
    let nodesInfo ← required (Json.members? (NodeAttrs.ofJson? 2)) nodesInfo
    return ⟨functionName, nodes, links, nodesInfo⟩
  | _ => none

end Document

end InstrGraph

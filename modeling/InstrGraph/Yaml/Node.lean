import InstrGraph.Yaml.Token

/-!
# The nodes of a YAML text

A document is a tree of scalars, sequences and mappings, and of aliases for nodes that have an
anchor. An alias need not stand for a node in front of it: anchors are numbered, an alias has the
number of its name, and it stands for the last node of the document with that number. So an alias
may even stand inside of its node.

The functions follow the grammar of the tokens. Their `fuel` bounds the number of steps; four times
the number of tokens is enough, since at most three calls come between two tokens.
-/

namespace InstrGraph.Yaml

/-- A node of a document. -/
inductive Node where
  | scalar (style : Style) (tag : Option String) (text : String)
  | sequence (items : List Node)
  | mapping (pairs : List (Node × Node))
  /-- The node whose anchor has this number. -/
  | alias (number : Nat)
  deriving Repr

namespace Node

/-- What stands for a node that is not written. -/
def empty : Node := scalar .plain none ""

end Node

/-- A document: its outermost node, and its nodes with anchors, each with its number. The node that
begins last comes first. -/
structure Document where
  root : Node
  anchored : List (Nat × Node) := []
  deriving Repr

namespace Document

/-- What a node stands for: itself, unless it is an alias. No alias has an anchor, so one step is
enough. -/
def follow (d : Document) : Node → Node
  | .alias n => (d.anchored.lookup n).getD Node.empty
  | node => node

end Document

/-! ## Anchors -/

/-- The number of each name so far. -/
abbrev AnchorNumbers := List (List Char × Nat)

/-- Number an anchor, with how many names there are. A name that had a number loses it, so that a
later name can get the same number again. -/
def AnchorNumbers.add (numbers : AnchorNumbers) (name : List Char) : Nat × AnchorNumbers :=
  let n := numbers.length
  (n, (name, n) :: numbers.filter fun e => e.1 != name)

/-! ## Tags -/

/-- What the handles stand for. The first entry for a handle counts. -/
abbrev Handles := List (List Char × List Char)

/-- The handles that every document has. -/
def standardHandles : Handles := [(['!'], ['!']), (['!', '!'], "tag:yaml.org,2002:".toList)]

/-- The whole tag that is written with a handle. -/
def TagName.resolve? (handles : Handles) (t : TagName) : Option String :=
  if t.handle.isEmpty then some (String.ofList t.suffix)
  else (handles.lookup t.handle).map fun stands => String.ofList (stands ++ t.suffix)

/-- What is written in front of a node: an anchor and a tag, in either order. -/
def readProperties : List Token → Option (List Char) × Option TagName × List Token
  | .anchor a :: .tag t :: rest => (some a, some t, rest)
  | .tag t :: .anchor a :: rest => (some a, some t, rest)
  | .anchor a :: rest => (some a, none, rest)
  | .tag t :: rest => (none, some t, rest)
  | rest => (none, none, rest)

/-! ## Nodes -/

/-- The tokens that are still to be read, the numbers of the anchors so far, and their nodes as far
as these have been read, in the order of `Document.anchored`. -/
structure Reading where
  tokens : List Token
  numbers : AnchorNumbers := []
  anchored : List (Nat × Node) := []
  deriving Repr

namespace Reading

/-- The reading that goes on with other tokens. -/
def withRest (r : Reading) (tokens : List Token) : Reading := { r with tokens }

/-- One of the given tokens comes next. -/
def sees (r : Reading) (ts : List Token) : Bool := r.tokens.head?.any ts.contains

end Reading

/-- The place of a node: between brackets, as an item or a whole document, or as a key or value in
a block, where the items of a sequence need not be indented. -/
inductive Place where
  | flow
  | item
  | field
  deriving DecidableEq, Repr

variable (handles : Handles)

mutual

/-- A node. -/
def readNode : (fuel : Nat) → Place → Reading → Option (Node × Reading)
  | 0, _, _ => none
  | fuel + 1, place, r =>
    match r.tokens with
    | .alias name :: rest => (r.numbers.lookup name).map fun n => (.alias n, r.withRest rest)
    | tokens =>
      let (anchor, tag, rest) := readProperties tokens
      let content (tag : Option String) (r : Reading) : Option (Node × Reading) :=
        readContent fuel place (anchor.isSome || tag.isSome) tag r
      let named (tag : Option String) : Option (Node × Reading) :=
        match anchor with
        | none => content tag (r.withRest rest)
        | some name =>
          let (n, numbers) := r.numbers.add name
          (content tag ⟨rest, numbers, []⟩).map fun (node, inner) =>
            (node, { inner with anchored := inner.anchored ++ (n, node) :: r.anchored })
      match tag with
      | none => named none
      | some t => (t.resolve? handles).bind fun tag => named (some tag)

/-- The content of a node behind its anchor and tag. Only if there is one of them, the content may
be missing. -/
def readContent : (fuel : Nat) → Place → (mayMiss : Bool) → (tag : Option String) → Reading →
    Option (Node × Reading)
  | 0, _, _, _, _ => none
  | fuel + 1, place, mayMiss, tag, r =>
    let missing := if mayMiss then some (Node.scalar .plain tag "", r) else none
    let sequence (read : Option (List Node × Reading)) : Option (Node × Reading) :=
      read.map fun (items, r) => (.sequence items, r)
    let mapping (read : Option (List (Node × Node) × Reading)) : Option (Node × Reading) :=
      read.map fun (pairs, r) => (.mapping pairs, r)
    match r.tokens with
    | .scalar style text :: rest =>
      some (.scalar style tag (String.ofList text), r.withRest rest)
    | .flowSequenceStart :: .flowSequenceEnd :: rest => some (.sequence [], r.withRest rest)
    | .flowSequenceStart :: rest => sequence (readFlowItems fuel (r.withRest rest))
    | .flowMappingStart :: .flowMappingEnd :: rest => some (.mapping [], r.withRest rest)
    | .flowMappingStart :: rest => mapping (readFlowPairs fuel (r.withRest rest))
    | .blockSequenceStart :: rest =>
      if place = .flow then missing else sequence (readItems fuel (r.withRest rest))
    | .blockMappingStart :: rest =>
      if place = .flow then missing else mapping (readPairs fuel (r.withRest rest))
    | .blockEntry :: _ => if place = .field then sequence (readLooseItems fuel r) else missing
    | _ => missing

/-- A node that may be left out in front of the given tokens. -/
def readOptional : (fuel : Nat) → Place → (stops : List Token) → Reading → Option (Node × Reading)
  | 0, _, _, _ => none
  | fuel + 1, place, stops, r =>
    if r.sees stops then some (Node.empty, r) else readNode fuel place r

/-- The items of a block up to its end. -/
def readItems : (fuel : Nat) → Reading → Option (List Node × Reading)
  | 0, _ => none
  | fuel + 1, r =>
    match r.tokens with
    | .blockEnd :: rest => some ([], r.withRest rest)
    | .blockEntry :: rest =>
      match readOptional fuel .item [.blockEntry, .blockEnd] (r.withRest rest) with
      | some (node, r) => (readItems fuel r).map fun (nodes, r) => (node :: nodes, r)
      | none => none
    | _ => none

/-- The items of a sequence that is not indented, up to the next token that is no item. -/
def readLooseItems : (fuel : Nat) → Reading → Option (List Node × Reading)
  | 0, _ => none
  | fuel + 1, r =>
    match r.tokens with
    | .blockEntry :: rest =>
      match readOptional fuel .item [.blockEntry, .key, .value, .blockEnd] (r.withRest rest) with
      | some (node, r) => (readLooseItems fuel r).map fun (nodes, r) => (node :: nodes, r)
      | none => none
    | _ => some ([], r)

/-- The pairs of a block up to its end. -/
def readPairs : (fuel : Nat) → Reading → Option (List (Node × Node) × Reading)
  | 0, _ => none
  | fuel + 1, r =>
    match r.tokens with
    | .blockEnd :: rest => some ([], r.withRest rest)
    | .key :: rest =>
      match readOptional fuel .field [.key, .value, .blockEnd] (r.withRest rest) with
      | none => none
      | some (name, r) =>
        match readValue fuel .field [.key, .value, .blockEnd] r with
        | none => none
        | some (value, r) => (readPairs fuel r).map fun (pairs, r) => ((name, value) :: pairs, r)
    | _ => none

/-- The value behind a key; it may be left out together with its sign. -/
def readValue : (fuel : Nat) → Place → (stops : List Token) → Reading → Option (Node × Reading)
  | 0, _, _, _ => none
  | fuel + 1, place, stops, r =>
    match r.tokens with
    | .value :: rest => readOptional fuel place stops (r.withRest rest)
    | _ => some (Node.empty, r)

/-- The items of a sequence between brackets, at least one, up to the closing bracket. A pair that
begins with the sign of a key is an item. -/
def readFlowItems : (fuel : Nat) → Reading → Option (List Node × Reading)
  | 0, _ => none
  | fuel + 1, r =>
    let item : Option (Node × Reading) := match r.tokens with
      | .key :: rest =>
        match readOptional fuel .flow [.value, .flowEntry, .flowSequenceEnd] (r.withRest rest) with
        | none => none
        | some (name, r) =>
          (readValue fuel .flow [.flowEntry, .flowSequenceEnd] r).map fun (value, r) =>
            (Node.mapping [(name, value)], r)
      | _ => readNode fuel .flow r
    match item with
    | none => none
    | some (node, r) =>
      match r.tokens with
      | .flowSequenceEnd :: rest => some ([node], r.withRest rest)
      | .flowEntry :: .flowSequenceEnd :: rest => some ([node], r.withRest rest)
      | .flowEntry :: rest =>
        (readFlowItems fuel (r.withRest rest)).map fun (nodes, r) => (node :: nodes, r)
      | _ => none

/-- The pairs of a mapping between braces, at least one, up to the closing brace. A node without
the sign of a key is a key without a value. -/
def readFlowPairs : (fuel : Nat) → Reading → Option (List (Node × Node) × Reading)
  | 0, _ => none
  | fuel + 1, r =>
    let pair : Option ((Node × Node) × Reading) := match r.tokens with
      | .key :: rest =>
        match readOptional fuel .flow [.value, .flowEntry, .flowMappingEnd] (r.withRest rest) with
        | none => none
        | some (name, r) =>
          (readValue fuel .flow [.flowEntry, .flowMappingEnd] r).map fun (value, r) =>
            ((name, value), r)
      | _ => (readNode fuel .flow r).map fun (name, r) => ((name, Node.empty), r)
    match pair with
    | none => none
    | some (pair, r) =>
      match r.tokens with
      | .flowMappingEnd :: rest => some ([pair], r.withRest rest)
      | .flowEntry :: .flowMappingEnd :: rest => some ([pair], r.withRest rest)
      | .flowEntry :: rest =>
        (readFlowPairs fuel (r.withRest rest)).map fun (pairs, r) => (pair :: pairs, r)
      | _ => none

end

/-! ## Documents -/

/-- The directives in front of a document, and the tokens behind them. -/
def readDirectives : List Token → List Directive × List Token
  | .directive d :: rest =>
    let (ds, rest) := readDirectives rest
    (d :: ds, rest)
  | rest => ([], rest)

/-- There is at most one version, and it is supported. -/
def goodVersions (ds : List Directive) : Bool :=
  let versions := ds.filterMap fun
    | .version major minor => some (major, minor)
    | .handle .. => none
  versions.length ≤ 1 && versions.all fun v => v == (1, 1) || v == (1, 2)

/-- The handles that directives define, each at most once. -/
def handlesOf? (ds : List Directive) : Option Handles :=
  let handles := ds.filterMap fun
    | .handle name stands => some (name, stands)
    | .version .. => none
  if (handles.map Prod.fst).Nodup then some (handles ++ standardHandles) else none

/-- The only document of a text. It may be empty, or end with a marker. -/
def readDocument (tokens : List Token) : Option Document :=
  let (directives, rest) := readDirectives tokens
  let fuel := 4 * tokens.length + 4
  let ends (r : Option (Node × Reading)) : Option Document :=
    r.bind fun (node, r) =>
      if r.tokens.all (· == .documentEnd) then some ⟨node, r.anchored⟩ else none
  match rest with
  | .documentStart :: rest =>
    if !goodVersions directives then none
    else
      (handlesOf? directives).bind fun handles =>
        let r : Reading := { tokens := rest }
        match rest with
        | [] => some { root := Node.empty }
        | .documentEnd :: _ => ends (some (Node.empty, r))
        | _ => ends (readNode handles fuel .item r)
  | [] => if directives.isEmpty then some { root := Node.empty } else none
  | _ =>
    if directives.isEmpty then ends (readNode standardHandles fuel .item { tokens := rest })
    else none

/-- The document that a text stands for. -/
def read? (text : String) : Option Document := (tokens? text.toList).bind readDocument

end InstrGraph.Yaml

import InstrGraph.Yaml.Scalar
import InstrGraph.Yaml.Tag

/-!
# The tokens of a YAML text

A scanner turns a text into tokens. Besides the signs that are written, there are tokens for the
beginning and the end of a block, which follow from the indentation, and for the keys of a mapping.

That something is a key shows only at the colon behind it. So the scanner remembers where a key may
have begun, and puts the token for it there afterwards. Such a *simple key* ends in the line where
it begins, and within 1024 characters.
-/

namespace InstrGraph.Yaml

/-- A token. -/
inductive Token where
  | directive (d : Directive)
  | documentStart
  | documentEnd
  | blockSequenceStart
  | blockMappingStart
  | blockEnd
  | flowSequenceStart
  | flowSequenceEnd
  | flowMappingStart
  | flowMappingEnd
  | blockEntry
  | flowEntry
  | key
  | value
  | alias (name : List Char)
  | anchor (name : List Char)
  | tag (name : TagName)
  | scalar (style : Style) (text : List Char)
  deriving DecidableEq, Repr

/-- A place where a simple key may have begun. -/
structure SimpleKey where
  /-- How many tokens come before it. -/
  tokensBefore : Nat
  place : Cursor
  /-- Something that stands where the keys of the innermost block stand must be a key. -/
  required : Bool
  deriving DecidableEq, Repr

/-- The text has gone on too far for a key. -/
def SimpleKey.isStale (c : Cursor) (k : SimpleKey) : Bool :=
  k.place.line < c.line || k.place.index + 1024 < c.index

/-- The state of the scanner. -/
structure Scanner where
  cursor : Cursor
  /-- The tokens found so far, the newest first. -/
  tokens : List Token := []
  count : Nat := 0
  /-- The column of the innermost block, `-1` outside of all. -/
  indent : Int := -1
  /-- The columns of the blocks around it. -/
  outerIndents : List Int := []
  /-- The possible key in the innermost brackets. -/
  simpleKey : Option SimpleKey := none
  /-- The possible keys of what is around the brackets, one for every pair that is open. -/
  outerKeys : List (Option SimpleKey) := []
  /-- A simple key may begin here. -/
  keyAllowed : Bool := true
  deriving DecidableEq, Repr

namespace Scanner

/-- The scanner is between brackets. -/
def inFlow (s : Scanner) : Bool := !s.outerKeys.isEmpty

/-- Add a token at the end. -/
def push (s : Scanner) (t : Token) : Scanner :=
  { s with tokens := t :: s.tokens, count := s.count + 1 }

/-- Add a token behind the first `before` ones. -/
def insertAt (s : Scanner) (before : Nat) (t : Token) : Scanner :=
  let newer := s.count - before
  { s with tokens := s.tokens.take newer ++ t :: s.tokens.drop newer, count := s.count + 1 }

/-- Go over `n` characters. -/
def past (s : Scanner) (n : Nat) : Scanner := { s with cursor := s.cursor.past n }

/-- A key may begin here, or not. -/
def allowKey (s : Scanner) (b : Bool) : Scanner := { s with keyAllowed := b }

/-! ## Simple keys -/

/-- Give up the possible key, unless it must be one. -/
def dropKey? (s : Scanner) : Option Scanner :=
  if s.simpleKey.any SimpleKey.required then none else some { s with simpleKey := none }

/-- Remember this place, if a key may begin here. -/
def saveKey? (s : Scanner) : Option Scanner :=
  if s.keyAllowed then
    let required := !s.inFlow && s.indent == s.cursor.column
    s.dropKey?.map fun s => { s with simpleKey := some ⟨s.count, s.cursor, required⟩ }
  else some s

/-- Give up the possible keys that the text has gone too far for, unless one must be a key. -/
def dropStaleKeys? (s : Scanner) : Option Scanner :=
  let isStale (k : Option SimpleKey) : Bool := k.any (SimpleKey.isStale s.cursor)
  let fresh (k : Option SimpleKey) : Option SimpleKey := if isStale k then none else k
  if (s.simpleKey :: s.outerKeys).any fun k => isStale k && k.any SimpleKey.required then none
  else some { s with simpleKey := fresh s.simpleKey, outerKeys := s.outerKeys.map fresh }

/-! ## Blocks -/

/-- Begin a block at a column, if that is further right than the innermost one. -/
def beginBlock (s : Scanner) (column before : Nat) (t : Token) : Scanner :=
  if !s.inFlow && s.indent < column then
    { s.insertAt before t with indent := column, outerIndents := s.indent :: s.outerIndents }
  else s

/-- The blocks that are left when those right of a column end: how many end, the innermost one of
the others, and those around it. -/
def endedBlocks (column : Int) : (indent : Int) → (outer : List Int) → Nat × Int × List Int
  | indent, [] => (0, indent, [])
  | indent, i :: outer =>
    if column < indent then
      let (n, rest) := endedBlocks column i outer
      (n + 1, rest)
    else (0, indent, i :: outer)

/-- End the blocks that are further right than a column. -/
def endBlocks (s : Scanner) (column : Int) : Scanner :=
  if s.inFlow then s
  else
    let (n, indent, outer) := endedBlocks column s.indent s.outerIndents
    { s with
      tokens := List.replicate n .blockEnd ++ s.tokens
      count := s.count + n
      indent := indent
      outerIndents := outer }

/-! ## Tokens one by one -/

/-- Go to the next token. A byte order mark may begin every line on the way, where it takes a
column. A tab in front of the token is no blank where a key may begin in a block. -/
def skipToToken : (fuel : Nat) → Scanner → Scanner
  | 0, s => s
  | fuel + 1, s =>
    let tabs := s.inFlow || !s.keyAllowed
    let c := (s.cursor.skipMark.skip fun ch => ch == ' ' || (tabs && ch == '\t')).skipComment
    match c.lineBreak? with
    | none => { s with cursor := c }
    | some (_, c) =>
      skipToToken fuel { s with cursor := c, keyAllowed := s.keyAllowed || !s.inFlow }

/-- A directive. -/
def directive? (s : Scanner) : Option Scanner :=
  (s.endBlocks (-1)).dropKey?.bind fun s =>
    (readDirective (s.cursor.past 1)).map fun (d, c) =>
      { s with cursor := c, keyAllowed := false }.push (.directive d)

/-- The beginning or the end of a document. -/
def marker? (s : Scanner) (t : Token) : Option Scanner :=
  (s.endBlocks (-1)).dropKey?.map fun s => ((s.allowKey false).push t).past 3

/-- An opening bracket. -/
def openFlow? (s : Scanner) (t : Token) : Option Scanner :=
  s.saveKey?.map fun s =>
    ({ s with simpleKey := none, outerKeys := s.simpleKey :: s.outerKeys, keyAllowed := true }.push
      t).past 1

/-- A closing bracket. -/
def closeFlow? (s : Scanner) (t : Token) : Option Scanner :=
  s.dropKey?.map fun s =>
    ({ s with
      simpleKey := s.outerKeys.head?.join
      outerKeys := s.outerKeys.tail
      keyAllowed := false }.push t).past 1

/-- A comma between brackets. -/
def flowEntry? (s : Scanner) : Option Scanner :=
  s.dropKey?.map fun s => ((s.allowKey true).push .flowEntry).past 1

/-- Begin a block here for a sign that stands at its left edge; between brackets nothing begins. -/
def beginBlockHere? (s : Scanner) (t : Token) : Option Scanner :=
  if s.inFlow then some s
  else if s.keyAllowed then some (s.beginBlock s.cursor.column s.count t)
  else none

/-- The sign in front of an item. -/
def blockEntry? (s : Scanner) : Option Scanner :=
  (s.beginBlockHere? .blockSequenceStart).bind fun s =>
    s.dropKey?.map fun s => ((s.allowKey true).push .blockEntry).past 1

/-- The sign in front of a key. -/
def key? (s : Scanner) : Option Scanner :=
  (s.beginBlockHere? .blockMappingStart).bind fun s =>
    s.dropKey?.map fun s => ((s.allowKey !s.inFlow).push .key).past 1

/-- The sign in front of a value. If there is a possible key, it is one. -/
def value? (s : Scanner) : Option Scanner :=
  match s.simpleKey with
  | some k =>
    let s := (s.insertAt k.tokensBefore .key).beginBlock k.place.column k.tokensBefore
      .blockMappingStart
    some (({ s with simpleKey := none, keyAllowed := false }.push .value).past 1)
  | none =>
    (s.beginBlockHere? .blockMappingStart).map fun s =>
      ((s.allowKey !s.inFlow).push .value).past 1

/-- A token that may be a key, or stand in front of one. -/
def node? (s : Scanner) (read : Cursor → Option (Token × Cursor)) : Option Scanner :=
  s.saveKey?.bind fun s =>
    (read s.cursor).map fun (t, c) => { s with cursor := c, keyAllowed := false }.push t

/-- A block of lines. -/
def block? (s : Scanner) (style : Style) : Option Scanner :=
  s.dropKey?.bind fun s =>
    (readBlock (style == .literal) s.indent (s.cursor.past 1)).map fun (text, c) =>
      { s with cursor := c, keyAllowed := true }.push (.scalar style text)

/-- A quoted scalar. -/
def quoted? (s : Scanner) (style : Style) : Option Scanner :=
  s.node? fun c =>
    (readQuoted (style == .doubleQuoted) c.rest.length (c.past 1)).map fun (text, c) =>
      (.scalar style text, c)

/-- A plain scalar. If it ends before another line, a key may begin there. -/
def plain? (s : Scanner) : Option Scanner :=
  s.saveKey?.bind fun s =>
    (readPlain s.inFlow (s.indent + 1).toNat s.cursor).map fun (text, crosses, c) =>
      { s with cursor := c, keyAllowed := crosses }.push (.scalar .plain text)

/-- A character that no plain scalar begins with. -/
def isReserved (c : Char) : Bool := ",[]\x7b\x7d#&*!|>'\"%@\x60".contains c

/-- The token that begins at the cursor. -/
def token? (s : Scanner) : Option Scanner :=
  let c := s.cursor
  match c.rest with
  | [] => none
  | ch :: rest =>
    if c.column == 0 && ch == '%' then s.directive?
    else if c.atMarker then s.marker? (if ch == '-' then .documentStart else .documentEnd)
    else if ch == '[' then s.openFlow? .flowSequenceStart
    else if ch == '\x7b' then s.openFlow? .flowMappingStart
    else if ch == ']' then s.closeFlow? .flowSequenceEnd
    else if ch == '\x7d' then s.closeFlow? .flowMappingEnd
    else if ch == ',' then s.flowEntry?
    else if ch == '-' && atGap rest then s.blockEntry?
    else if ch == '?' && (s.inFlow || atGap rest) then s.key?
    else if ch == ':' && (s.inFlow || atGap rest) then s.value?
    else if ch == '*' then
      s.node? fun c => (readAnchor (c.past 1)).map fun (name, c) => (.alias name, c)
    else if ch == '&' then
      s.node? fun c => (readAnchor (c.past 1)).map fun (name, c) => (.anchor name, c)
    else if ch == '!' then
      s.node? fun c => (readTag s.inFlow c).map fun (name, c) => (.tag name, c)
    else if ch == '|' && !s.inFlow then s.block? .literal
    else if ch == '>' && !s.inFlow then s.block? .folded
    else if ch == '\'' then s.quoted? .singleQuoted
    else if ch == '"' then s.quoted? .doubleQuoted
    else if isBlank ch || isReserved ch then none
    else s.plain?

/-- The tokens from here on. -/
def tokens? : (fuel : Nat) → Scanner → Option (List Token)
  | 0, _ => none
  | fuel + 1, s =>
    match (s.skipToToken (fuel + 1)).dropStaleKeys? with
    | none => none
    | some s =>
      let s := s.endBlocks s.cursor.column
      if s.cursor.rest.isEmpty then (s.endBlocks (-1)).dropKey?.map fun s => s.tokens.reverse
      else s.token?.bind (tokens? fuel)

end Scanner

/-- The tokens of a text. -/
def tokens? (cs : List Char) : Option (List Token) :=
  if cs.all isAllowed then Scanner.tokens? (cs.length + 1) { cursor := ⟨cs, 0, 0, 0⟩ } else none

end InstrGraph.Yaml

/-!
# Places in a YAML text

The classes of characters that the layout of a YAML text depends on, and the cursor: the text that
is still to be read, together with the line and the column where it begins.
-/

namespace InstrGraph.Yaml

/-- A blank within a line. -/
def isBlank (c : Char) : Bool := c == ' ' || c == '\t'

/-- A line break. A carriage return before a line feed is one with it. -/
def isBreak (c : Char) : Bool :=
  c == '\n' || c == '\r' || c == '\x85' || c == '\u2028' || c == '\u2029'

/-- What a line break is read as: the separators stay as they are, the others are line feeds. -/
def breakText (c : Char) : Char := if c == '\u2028' || c == '\u2029' then c else '\n'

/-- A letter, digit, underscore or hyphen of ASCII. -/
def isNameChar (c : Char) : Bool := c.isAlphanum || c == '_' || c == '-'

/-- The byte order mark. -/
def byteOrderMark : Char := '\uFEFF'

/-- A character that a text may hold outside its escapes. -/
def isAllowed (c : Char) : Bool :=
  let n := c.toNat
  c == '\t' || c == '\n' || c == '\r' || (0x20 ≤ n && n ≤ 0x7E) || n == 0x85 ||
    (0xA0 ≤ n && n ≤ 0xFFFD) || 0x10000 ≤ n

/-- The text is over, or goes on with a blank or a line break. -/
def atGap : List Char → Bool
  | [] => true
  | c :: _ => isBlank c || isBreak c

/-- A place in a text: the text from there on, and where it is. -/
structure Cursor where
  rest : List Char
  index : Nat := 0
  line : Nat := 0
  column : Nat := 0
  deriving DecidableEq, Repr

namespace Cursor

/-- The place `n` characters further in the same line. -/
def past (c : Cursor) (n : Nat) : Cursor :=
  { c with rest := c.rest.drop n, index := c.index + n, column := c.column + n }

/-- The place in the same line where the text is `rest`, which it ends with. -/
def upTo (c : Cursor) (rest : List Char) : Cursor := c.past (c.rest.length - rest.length)

/-- The next character is `ch`. -/
def sees (c : Cursor) (ch : Char) : Bool := c.rest.head? == some ch

/-- The place behind the characters of a class. -/
def skip (p : Char → Bool) (c : Cursor) : Cursor := c.past (c.rest.takeWhile p).length

/-- The characters of a class from here on, and the place behind them. -/
def span (p : Char → Bool) (c : Cursor) : List Char × Cursor := (c.rest.takeWhile p, c.skip p)

/-- The line break that stands here, as it is read, and the beginning of the next line. -/
def lineBreak? (c : Cursor) : Option (Char × Cursor) :=
  match c.rest with
  | '\r' :: '\n' :: rest => some ('\n', ⟨rest, c.index + 2, c.line + 1, 0⟩)
  | ch :: rest =>
    if isBreak ch then some (breakText ch, ⟨rest, c.index + 1, c.line + 1, 0⟩) else none
  | [] => none

/-- A document begins (`---`) or ends (`...`) here. -/
def atMarker (c : Cursor) : Bool :=
  c.column == 0 && (c.rest.take 3 == ['-', '-', '-'] || c.rest.take 3 == ['.', '.', '.']) &&
    atGap (c.rest.drop 3)

/-- The place behind a byte order mark at the beginning of a line. -/
def skipMark (c : Cursor) : Cursor :=
  if c.column == 0 && c.sees byteOrderMark then c.past 1 else c

/-- The place before the next line break, if a comment begins here. -/
def skipComment (c : Cursor) : Cursor := if c.sees '#' then c.skip fun ch => !isBreak ch else c

/-- The beginning of the next line, if only blanks and a comment are left in this one. -/
def endOfLine? (c : Cursor) : Option Cursor :=
  let c := (c.skip isBlank).skipComment
  if c.rest.isEmpty then some c else c.lineBreak?.map Prod.snd

end Cursor

end InstrGraph.Yaml

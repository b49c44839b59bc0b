import InstrGraph.Yaml.Cursor
import InstrGraph.Yaml.Scalar
import InstrGraph.Yaml.Word

/-!
# Writing YAML

Records are written with every field on lines of its own. The fields of an inner record are
indented by two columns, the items of a list not at all. A text is written plainly if that reads
back as the text, else between single quotes, else between double quotes; a text with line feeds
becomes a literal block where that is possible.
-/

namespace InstrGraph.Yaml

/-! ## What a text is like -/

/-- A character that is written as it is. -/
def isPrintable (c : Char) : Bool :=
  let n := c.toNat
  c == '\n' || (0x20 ≤ n && n ≤ 0x7E) || (0xA0 ≤ n && n ≤ 0xFFFD && c != byteOrderMark) ||
    0x10000 ≤ n

/-- A character that gives a plain scalar another meaning as its first one; `next` is what follows
it. -/
def isLeadingSign (c : Char) (next : List Char) : Bool :=
  "#,[]\x7b\x7d&*!|>'\"%@\x60".contains c || ((c == '?' || c == ':' || c == '-') && atGap next)

/-- Whether a colon before a gap, or a number sign behind one, stands anywhere in a text. `afterGap`
tells whether the text begins behind a gap. -/
def hasInnerSign (afterGap : Bool) : List Char → Bool
  | [] => false
  | c :: rest =>
    (c == ':' && atGap rest) || (c == '#' && afterGap) || hasInnerSign (isBlank c || isBreak c) rest

/-- A sign in the text gives it another meaning as a plain scalar. -/
def hasSigns (cs : List Char) : Bool :=
  cs.take 3 == ['-', '-', '-'] || cs.take 3 == ['.', '.', '.'] ||
    match cs with
    | [] => false
    | c :: rest => isLeadingSign c rest || hasInnerSign (isBlank c || isBreak c) rest

/-- Two characters of the given classes follow each other. -/
def hasPair (p q : Char → Bool) : List Char → Bool
  | a :: b :: rest => (p a && q b) || hasPair p q (b :: rest)
  | _ => false

/-- The space. -/
def isSpace (c : Char) : Bool := c == ' '

/-- A character has to be escaped, or a blank would be lost at the end of a line. -/
def needsEscapes (cs : List Char) : Bool := !cs.all isPrintable || hasPair isSpace isBreak cs

/-- The text can be a literal block. -/
def canBeBlock (cs : List Char) : Bool := !needsEscapes cs && !cs.getLast?.any isSpace

/-- The text can stand between single quotes. -/
def canBeQuoted (cs : List Char) : Bool := !needsEscapes cs && !hasPair isBreak isSpace cs

/-- The text can be a plain scalar. -/
def canBePlain (cs : List Char) : Bool :=
  canBeQuoted cs && !cs.any isBreak && !cs.head?.any isSpace && !cs.getLast?.any isSpace &&
    !hasSigns cs

/-! ## Styles -/

/-- So many blanks. -/
def spaces (n : Nat) : List Char := List.replicate n ' '

/-- The letter of the escape for a character that has one. -/
def escapeLetter? : Char → Option Char
  | '\x00' => some '0'
  | '\x07' => some 'a'
  | '\x08' => some 'b'
  | '\t' => some 't'
  | '\n' => some 'n'
  | '\x0b' => some 'v'
  | '\x0c' => some 'f'
  | '\r' => some 'r'
  | '\x1b' => some 'e'
  | '"' => some '"'
  | '\\' => some '\\'
  | '\x85' => some 'N'
  | '\u2028' => some 'L'
  | '\u2029' => some 'P'
  | _ => none

/-- The escape for a character by its code. -/
def codeEscape (c : Char) : List Char :=
  let n := c.toNat
  let digits (width : Nat) : List Char := (Text.hexDigits width n).map Char.toUpper
  if n ≤ 0xFF then 'x' :: digits 2
  else if n ≤ 0xFFFF then 'u' :: digits 4
  else 'U' :: digits 8

/-- A character between double quotes. -/
def escapeChar (c : Char) : List Char :=
  if !isPrintable c || isBreak c || c == '"' || c == '\\' then
    '\\' :: match escapeLetter? c with
      | some e => [e]
      | none => codeEscape c
  else [c]

/-- A text between double quotes. -/
def doubleQuoted (cs : List Char) : List Char := '"' :: (cs.flatMap escapeChar ++ ['"'])

/-- The inside of a text between single quotes, where quotes are doubled. What stands behind a line
break is indented. -/
def singleQuotedChars (indent : Nat) (afterBreak : Bool) : List Char → List Char
  | [] => if afterBreak then spaces indent else []
  | c :: rest =>
    if isBreak c then c :: singleQuotedChars indent true rest
    else
      (if afterBreak then spaces indent else []) ++ (if c == '\'' then ['\'', '\''] else [c]) ++
        singleQuotedChars indent false rest

/-- A text without line feeds between single quotes. -/
def singleQuoted (indent : Nat) (cs : List Char) : List Char :=
  '\'' :: (singleQuotedChars indent false cs ++ ['\''])

/-- The sign for the line breaks at the end of a block: none for a single one. -/
def chompingSign (cs : List Char) : List Char :=
  match cs.reverse with
  | [] => ['-']
  | c :: before =>
    if !isBreak c then ['-'] else if before.head?.all isBreak then ['+'] else []

/-- The signs behind the indicator of a block. The indentation is given if it does not show. -/
def blockSigns (cs : List Char) : List Char :=
  (if cs.head?.any fun c => isSpace c || isBreak c then ['2'] else []) ++ chompingSign cs

/-- The lines of a block, each that is not empty indented. -/
def blockChars (indent : Nat) (afterBreak : Bool) : List Char → List Char
  | [] => if afterBreak then [] else ['\n']
  | c :: rest =>
    if isBreak c then c :: blockChars indent true rest
    else (if afterBreak then spaces indent else []) ++ c :: blockChars indent false rest

/-- A text as a literal block, with the line break behind it. -/
def literalBlock (indent : Nat) (cs : List Char) : List Char :=
  '|' :: (blockSigns cs ++ '\n' :: blockChars indent true cs)

/-- A text and the end of its line. Further lines of it are indented. -/
def textChars (indent : Nat) (s : String) : List Char :=
  let cs := s.toList
  if cs.contains '\n' then
    if canBeBlock cs then literalBlock indent cs else doubleQuoted cs ++ ['\n']
  else if !looksOther s && canBePlain cs then cs ++ ['\n']
  else if canBeQuoted cs then singleQuoted indent cs ++ ['\n']
  else doubleQuoted cs ++ ['\n']

/-! ## Records -/

/-- What a field of a record can hold. -/
inductive Value where
  /-- A scalar that is written as it is. -/
  | word (text : String)
  | text (s : String)
  | words (items : List String)
  | record (fields : List (String × Value))
  deriving Repr

/-- The items of a list. -/
def itemChars (indent : Nat) (words : List String) : List Char :=
  words.flatMap fun w => spaces indent ++ '-' :: ' ' :: w.toList ++ ['\n']

mutual

/-- A value behind the colon of its field. -/
def valueChars (indent : Nat) : Value → List Char
  | .word w => ' ' :: w.toList ++ ['\n']
  | .text s => ' ' :: textChars (indent + 2) s
  | .words [] => " []\n".toList
  | .words (w :: ws) => '\n' :: itemChars indent (w :: ws)
  | .record [] => [' ', '\x7b', '\x7d', '\n']
  | .record (f :: fs) => '\n' :: fieldsChars (indent + 2) (f :: fs)

/-- The fields of a record. -/
def fieldsChars (indent : Nat) : List (String × Value) → List Char
  | [] => []
  | (name, v) :: rest =>
    spaces indent ++ name.toList ++ ':' :: valueChars indent v ++ fieldsChars indent rest

end

/-- The text of a record. -/
def write (fields : List (String × Value)) : String := String.ofList (fieldsChars 0 fields)

end InstrGraph.Yaml

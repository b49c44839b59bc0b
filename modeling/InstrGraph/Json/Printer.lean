import InstrGraph.Decimal.Shortest
import InstrGraph.Json.Basic
import InstrGraph.Text.Hex

/-!
# Writing JSON

Two layouts: compact, without any blank, and pretty, with every item and member on a line of its
own. In both, the empty array is `[]` and the empty object a pair of braces.
-/

namespace InstrGraph.Json

/-- How a character stands inside a string: the quote, the backslash and the control characters
are escaped, everything else stands for itself. -/
def escapeChar (c : Char) : List Char :=
  if c == '"' then ['\\', '"']
  else if c == '\\' then ['\\', '\\']
  else if c == '\x08' then ['\\', 'b']
  else if c == '\x0c' then ['\\', 'f']
  else if c == '\n' then ['\\', 'n']
  else if c == '\r' then ['\\', 'r']
  else if c == '\t' then ['\\', 't']
  else if c.toNat < 0x20 then '\\' :: 'u' :: Text.hexDigits 4 c.toNat
  else [c]

/-- A string with its quotes. -/
def quote (s : String) : List Char := '"' :: (s.toList.flatMap escapeChar ++ ['"'])

/-- Doubles are written without an exponent from five places behind the point to sixteen before
it. -/
def doubleLayout : Decimal.Layout := ⟨16, -4⟩

/-- The text of a value that is neither an array nor an object. -/
def scalarText : Json → List Char
  | bool true => "true".toList
  | bool false => "false".toList
  | int n => (toString n).toList
  | double bits => doubleLayout.ofBits bits
  | string s => quote s
  | _ => "null".toList

mutual

/-- The compact text of a value. -/
def compactChars : Json → List Char
  | array items => '[' :: (compactItems items ++ [']'])
  | object members => '\x7b' :: (compactMembers members ++ ['\x7d'])
  | j => scalarText j

/-- The items of an array between commas. -/
def compactItems : List Json → List Char
  | [] => []
  | [j] => compactChars j
  | j :: rest => compactChars j ++ ',' :: compactItems rest

/-- The members of an object between commas. -/
def compactMembers : List (String × Json) → List Char
  | [] => []
  | [(name, j)] => quote name ++ ':' :: compactChars j
  | (name, j) :: rest => quote name ++ ':' :: (compactChars j ++ ',' :: compactMembers rest)

end

/-- A line break and two blanks for every level. -/
def newline (level : Nat) : List Char := '\n' :: List.replicate (2 * level) ' '

mutual

/-- The pretty text of a value that stands `level` levels deep. -/
def prettyChars (level : Nat) : Json → List Char
  | array [] => "[]".toList
  | array (j :: rest) =>
    '[' :: (newline (level + 1) ++ prettyChars (level + 1) j ++ prettyItems (level + 1) rest ++
      newline level ++ [']'])
  | object [] => ['\x7b', '\x7d']
  | object ((name, j) :: rest) =>
    '\x7b' :: (newline (level + 1) ++ quote name ++ ':' :: ' ' :: prettyChars (level + 1) j ++
      prettyMembers (level + 1) rest ++ newline level ++ ['\x7d'])
  | j => scalarText j

/-- Further items of an array, each behind a comma. -/
def prettyItems (level : Nat) : List Json → List Char
  | [] => []
  | j :: rest => ',' :: (newline level ++ prettyChars level j ++ prettyItems level rest)

/-- Further members of an object, each behind a comma. -/
def prettyMembers (level : Nat) : List (String × Json) → List Char
  | [] => []
  | (name, j) :: rest =>
    ',' :: (newline level ++ quote name ++ ':' :: ' ' :: prettyChars level j ++
      prettyMembers level rest)

end

/-- The text of a value on one line. -/
def compact (j : Json) : String := String.ofList (compactChars j)

/-- The text of a value over several lines. -/
def pretty (j : Json) : String := String.ofList (prettyChars 0 j)

/-- The text of a value in one of the two layouts. -/
def text (isPretty : Bool) (j : Json) : String := if isPretty then pretty j else compact j

end InstrGraph.Json

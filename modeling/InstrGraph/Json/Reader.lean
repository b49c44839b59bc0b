import InstrGraph.Json.Basic
import InstrGraph.Text.Hex

/-!
# Reading JSON

The grammar of RFC 8259 without extensions. `Json.read?` reads a whole text; its parts take a text
and return what they read together with the rest of the text.

A decimal is not always rounded to the nearest double: its digits are collected in 64 bits, further
digits are dropped, and the result is multiplied or divided by a power of ten.
-/

namespace InstrGraph.Json

/-- The blanks between the tokens of a JSON text. -/
def isSpace (c : Char) : Bool := c == ' ' || c == '\n' || c == '\t' || c == '\r'

/-- The text behind leading blanks. -/
def skipSpace (cs : List Char) : List Char := cs.dropWhile isSpace

/-! ## Strings -/

/-- The 16-bit unit that four hexadecimal digits stand for. -/
def unit? (a b c d : Char) : Option Nat := Text.hexNumber? [a, b, c, d]

/-- The first unit of a surrogate pair. -/
def isLeading (u : Nat) : Bool := 0xD800 ≤ u && u < 0xDC00

/-- The second unit of a surrogate pair. -/
def isTrailing (u : Nat) : Bool := 0xDC00 ≤ u && u < 0xE000

/-- The character of a surrogate pair. -/
def pairChar (u v : Nat) : Char := Char.ofNat (0x10000 + (u - 0xD800) * 0x400 + (v - 0xDC00))

/-- The character that a one-letter escape stands for. -/
def escape? : Char → Option Char
  | '"' => some '"'
  | '\\' => some '\\'
  | '/' => some '/'
  | 'b' => some '\x08'
  | 'f' => some '\x0c'
  | 'n' => some '\n'
  | 'r' => some '\r'
  | 't' => some '\t'
  | _ => none

/-- Put a character in front of the rest of a string, if the rest has a value. -/
def consChar (c : Char) (r : Option (List Char) × List Char) : Option (List Char) × List Char :=
  (r.1.map (c :: ·), r.2)

/-- The characters of a string up to its closing quote, and the text behind it. The characters are
missing if a surrogate stands alone. -/
def readChars : List Char → Option (Option (List Char) × List Char)
  | [] => none
  | '"' :: rest => some (some [], rest)
  | '\\' :: 'u' :: a :: b :: c :: d :: '\\' :: 'u' :: a' :: b' :: c' :: d' :: rest =>
    match unit? a b c d, unit? a' b' c' d' with
    | some u, some v =>
      if isLeading u then
        if isTrailing v then (readChars rest).map (consChar (pairChar u v))
        else (readChars ('\\' :: 'u' :: a' :: b' :: c' :: d' :: rest)).map fun r => (none, r.2)
      else if isTrailing u then
        (readChars ('\\' :: 'u' :: a' :: b' :: c' :: d' :: rest)).map fun r => (none, r.2)
      else
        (readChars ('\\' :: 'u' :: a' :: b' :: c' :: d' :: rest)).map (consChar (Char.ofNat u))
    | _, _ => none
  | '\\' :: 'u' :: a :: b :: c :: d :: rest =>
    match unit? a b c d with
    | some u =>
      if isLeading u || isTrailing u then (readChars rest).map fun r => (none, r.2)
      else (readChars rest).map (consChar (Char.ofNat u))
    | none => none
  | '\\' :: e :: rest =>
    match escape? e with
    | some c => (readChars rest).map (consChar c)
    | none => none
  | c :: rest => if c.toNat < 0x20 then none else (readChars rest).map (consChar c)

/-! ## Numbers -/

/-- An ASCII digit. -/
def isDigit (c : Char) : Bool := '0' ≤ c && c ≤ '9'

/-- The parts of a number: its sign, the digits before and behind the point, and the exponent. -/
structure Numeral where
  negative : Bool
  whole : List Char
  fraction : Option (List Char)
  exponent : Option Int
  deriving DecidableEq, Repr

/-- The number that a run of digits stands for. -/
def digitsValue (ds : List Char) : Nat := ds.foldl (fun n c => 10 * n + (c.toNat - '0'.toNat)) 0

/-- The exponent at the front of a text, if one stands there; `none` if it is broken off. -/
def readExponent : List Char → Option (Option Int × List Char)
  | e :: rest =>
    if e == 'e' || e == 'E' then
      let (negative, rest) := match rest with
        | '-' :: r => (true, r)
        | '+' :: r => (false, r)
        | r => (false, r)
      let ds := rest.takeWhile isDigit
      if ds.isEmpty then none
      else
        let n : Int := digitsValue ds
        some (some (if negative then -n else n), rest.dropWhile isDigit)
    else some (none, e :: rest)
  | [] => some (none, [])

/-- The fraction at the front of a text, if one stands there; `none` if it is broken off. -/
def readFraction : List Char → Option (Option (List Char) × List Char)
  | '.' :: rest =>
    let ds := rest.takeWhile isDigit
    if ds.isEmpty then none else some (some ds, rest.dropWhile isDigit)
  | cs => some (none, cs)

/-- A number at the front of a text. -/
def readNumeral (cs : List Char) : Option (Numeral × List Char) := do
  let (negative, cs) := match cs with
    | '-' :: r => (true, r)
    | r => (false, r)
  let whole := cs.takeWhile isDigit
  let rest := cs.dropWhile isDigit
  if whole.isEmpty || (whole.length > 1 && whole.head? == some '0') then none
  else
    let (fraction, rest) ← readFraction rest
    let (exponent, rest) ← readExponent rest
    return (⟨negative, whole, fraction, exponent⟩, rest)

/-- The largest number of 64 bits. -/
def maxWord : Nat := 0xFFFFFFFFFFFFFFFF

/-- Take digits into a 64-bit significand as long as they fit. Returns the significand and the
digits that are left. -/
def collect (n : Nat) : List Char → Nat × List Char
  | [] => (n, [])
  | c :: ds =>
    let m := 10 * n + (c.toNat - '0'.toNat)
    if m ≤ maxWord then collect m ds else (n, c :: ds)

/-- Divide by powers of ten beyond the range of the doubles, in steps of `10 ^ 308`. -/
def scaleDown : Nat → Float → Nat → Float
  | 0, f, _ => f
  | steps + 1, f, e =>
    if e ≤ 308 then f / Float.ofScientific 1 false e
    else if f == 0 then f
    else scaleDown steps (f / Float.ofScientific 1 false 308) (e - 308)

/-- The double of a significand and a power of ten; `none` if it is infinite. -/
def scale? (significand : Nat) (exponent : Int) : Option Float :=
  let f := significand.toUInt64.toFloat
  if 0 ≤ exponent then
    if exponent ≤ 308 then
      let g := f * Float.ofScientific 1 false exponent.toNat
      if g.isInf then none else some g
    else if f == 0 then some f else none
  else some (scaleDown 4 f (-exponent).toNat)

namespace Numeral

/-- The value of a numeral. -/
def toJson (n : Numeral) : Json :=
  let (significand, dropped) := collect 0 n.whole
  let plain := n.fraction.isNone && n.exponent.isNone
  if plain && dropped.isEmpty && !n.negative then .int significand
  else if plain && dropped.isEmpty && 0 < significand && significand ≤ 0x8000000000000000 then
    .int (-(significand : Int))
  else
    let (significand, left) := collect significand (n.fraction.getD [])
    let taken := (n.fraction.getD []).length - left.length
    let exponent : Int := (dropped.length : Int) - taken + n.exponent.getD 0
    match scale? significand exponent with
    | some f => .double (if n.negative then -f else f).toBits
    | none => .unreadable

end Numeral

/-! ## Values -/

/-- A value made of its members, unless a name among them has no value. -/
def objectOf (members : List (Option String × Json)) : Json :=
  match members.mapM fun (name, j) => name.map fun n => (n, j) with
  | some ms => object ms
  | none => unreadable

/-- A string value, if its characters have one. -/
def stringOf : Option (List Char) → Json
  | some cs => string (String.ofList cs)
  | none => unreadable

/-- The text behind a word it begins with. -/
def dropWord? (word : String) (cs : List Char) : Option (List Char) :=
  if word.toList.isPrefixOf cs then some (cs.drop word.toList.length) else none

mutual

/-- A value at the front of a text. `fuel` bounds the number of steps; the length of the text is
enough, since every step takes a character. -/
def readValue : (fuel : Nat) → List Char → Option (Json × List Char)
  | 0, _ => none
  | fuel + 1, cs =>
    match skipSpace cs with
    | '"' :: rest => (readChars rest).map fun (s, rest) => (stringOf s, rest)
    | '[' :: rest =>
      match skipSpace rest with
      | ']' :: rest => some (array [], rest)
      | _ => (readItems fuel rest).map fun (items, rest) => (array items, rest)
    | '\x7b' :: rest =>
      match skipSpace rest with
      | '\x7d' :: rest => some (object [], rest)
      | _ => (readMembers fuel rest).map fun (members, rest) => (objectOf members, rest)
    | 'n' :: rest => (dropWord? "ull" rest).map fun rest => (null, rest)
    | 't' :: rest => (dropWord? "rue" rest).map fun rest => (bool true, rest)
    | 'f' :: rest => (dropWord? "alse" rest).map fun rest => (bool false, rest)
    | rest => (readNumeral rest).map fun (n, rest) => (n.toJson, rest)

/-- The items of an array up to its closing bracket, at least one. -/
def readItems : (fuel : Nat) → List Char → Option (List Json × List Char)
  | 0, _ => none
  | fuel + 1, cs =>
    match readValue fuel cs with
    | none => none
    | some (j, rest) =>
      match skipSpace rest with
      | ']' :: rest => some ([j], rest)
      | ',' :: rest => (readItems fuel rest).map fun (js, rest) => (j :: js, rest)
      | _ => none

/-- The members of an object up to its closing brace, at least one. -/
def readMembers : (fuel : Nat) → List Char → Option (List (Option String × Json) × List Char)
  | 0, _ => none
  | fuel + 1, cs =>
    match skipSpace cs with
    | '"' :: rest =>
      match readChars rest with
      | none => none
      | some (name, rest) =>
        match skipSpace rest with
        | ':' :: rest =>
          match readValue fuel rest with
          | none => none
          | some (j, rest) =>
            let m := (name.map String.ofList, j)
            match skipSpace rest with
            | '\x7d' :: rest => some ([m], rest)
            | ',' :: rest => (readMembers fuel rest).map fun (ms, rest) => (m :: ms, rest)
            | _ => none
        | _ => none
    | _ => none

end

/-- The value that a whole text stands for. -/
def readChars? (cs : List Char) : Option Json :=
  match readValue (cs.length + 1) cs with
  | some (j, rest) => if (skipSpace rest).isEmpty then some j else none
  | none => none

/-- The value that a whole text stands for. -/
def read? (text : String) : Option Json := readChars? text.toList

end InstrGraph.Json

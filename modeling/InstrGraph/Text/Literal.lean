import InstrGraph.Text.Blank
import InstrGraph.Text.Digit

/-!
# Literals and integer values

A literal operand is a decimal number (with optional fraction and exponent), a hexadecimal
bit pattern, or one of the constant words. `readInt?` gives the value of an integer written with
ASCII digits, as far as it fits into 128 bits.
-/

namespace InstrGraph.Text

/-- At least one digit, and what follows the run of digits. -/
def dropDigits? (cs : List Char) : Option (List Char) :=
  match cs with
  | c :: rest => if isDigit c then some (rest.dropWhile isDigit) else none
  | [] => none

/-- Nothing, or an exponent: `e` or `E`, an optional sign, digits. -/
def isExponent : List Char → Bool
  | [] => true
  | e :: rest =>
    (e == 'e' || e == 'E') &&
      (match rest with
        | '-' :: ds => dropDigits? ds == some []
        | '+' :: ds => dropDigits? ds == some []
        | ds => dropDigits? ds == some [])

/-- Digits, an optional fraction, an optional exponent. -/
def isUnsignedDecimal (cs : List Char) : Bool :=
  match dropDigits? cs with
  | none => false
  | some ('.' :: fraction) =>
    match dropDigits? fraction with
    | none => false
    | some rest => isExponent rest
  | some rest => isExponent rest

/-- A decimal number with an optional minus sign. -/
def isDecimal : List Char → Bool
  | '-' :: cs => isUnsignedDecimal cs
  | cs => isUnsignedDecimal cs

/-- A hexadecimal digit. -/
def isHexDigit (c : Char) : Bool :=
  isAsciiDigit c || ('a' ≤ c && c ≤ 'f') || ('A' ≤ c && c ≤ 'F')

/-- A bit pattern: `0x` and hexadecimal digits. -/
def isBitPattern : List Char → Bool
  | '0' :: 'x' :: ds => !ds.isEmpty && ds.all isHexDigit
  | _ => false

/-- The words that stand for a constant. -/
def constantWords : List (List Char) :=
  ["<const>", "null", "undef", "poison", "true", "false", "zeroinitializer", "none"].map
    String.toList

/-- A literal, blanks around it allowed. -/
def isLiteral (cs : List Char) : Bool :=
  let cs := trim cs
  isDecimal cs || isBitPattern cs || constantWords.contains cs

/-- The value of an ASCII digit. -/
def digitValue (c : Char) : Nat := c.toNat - '0'.toNat

/-- The number that a run of ASCII digits stands for. -/
def readNat? (cs : List Char) : Option Nat :=
  if !cs.isEmpty && cs.all isAsciiDigit then
    some (cs.foldl (fun n c => 10 * n + digitValue c) 0)
  else none

/-- The integer that a text stands for: ASCII digits behind an optional sign. -/
def readAnyInt? : List Char → Option Int
  | '-' :: ds => (readNat? ds).map fun n => -(n : Int)
  | '+' :: ds => (readNat? ds).map fun n => (n : Int)
  | ds => (readNat? ds).map fun n => (n : Int)

/-- The integer that a text stands for, if it fits into 128 bits with sign. -/
def readInt? (cs : List Char) : Option Int :=
  (readAnyInt? cs).filter fun v =>
    -0x80000000000000000000000000000000 ≤ v && v < 0x80000000000000000000000000000000

end InstrGraph.Text

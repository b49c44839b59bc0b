import InstrGraph.Text.Hex

/-!
# What plain scalars mean

A plain scalar may stand for nothing, a boolean or a number. Everything else is text, also a number
with leading zeros. A writer has to quote a text that would be read as something else.
-/

namespace InstrGraph.Yaml

/-- A word for the absence of a value. -/
def isNullWord (s : String) : Bool := ["null", "Null", "NULL", "~"].contains s

/-- The boolean that a word stands for. -/
def bool? (s : String) : Option Bool :=
  if ["true", "True", "TRUE"].contains s then some true
  else if ["false", "False", "FALSE"].contains s then some false
  else none

/-! ## Integers -/

/-- The number that digits of a base stand for. -/
def digits? (base : Nat) (ds : List Char) : Option Nat :=
  if ds.isEmpty then none
  else
    ds.foldlM (fun n d => (Text.hexValue? d).bind fun v =>
      if v < base then some (base * n + v) else none) 0

/-- An integer without sign: in base sixteen, eight or two behind a letter, or in base ten without
leading zeros. -/
def magnitude? : List Char → Option Nat
  | '0' :: 'x' :: ds => digits? 16 ds
  | '0' :: 'o' :: ds => digits? 8 ds
  | '0' :: 'b' :: ds => digits? 2 ds
  | '0' :: _ :: _ => none
  | ds => digits? 10 ds

/-- The integer that a text stands for. -/
def int? (s : String) : Option Int :=
  match s.toList with
  | '+' :: cs => (magnitude? cs).map fun n => (n : Int)
  | '-' :: cs => (magnitude? cs).map fun n => -(n : Int)
  | cs => (magnitude? cs).map fun n => (n : Int)

/-- An integer of 64 bits with sign. -/
def signed? (s : String) : Option Int :=
  (int? s).filter fun n => -0x8000000000000000 ≤ n && n < 0x8000000000000000

/-- An integer of 64 bits without sign. -/
def unsigned? (s : String) : Option Nat :=
  if s.toList.head? == some '-' then none
  else ((int? s).filter fun n => n < 0x10000000000000000).map Int.toNat

/-! ## Texts that look like something else -/

/-- The text without a sign at its front. -/
def dropSign : List Char → List Char
  | '+' :: cs => cs
  | '-' :: cs => cs
  | cs => cs

/-- Digits with a leading zero, which are no number. -/
def isZeroPadded (cs : List Char) : Bool :=
  match dropSign cs with
  | '0' :: d :: ds => (d :: ds).all Char.isDigit
  | _ => false

/-- A decimal as its digits and the power of ten of the last one. -/
structure Decimal where
  digits : List Char
  exponent : Int
  deriving DecidableEq, Repr

/-- The exponent that a text stands for; without any text it is zero. -/
def exponent? : List Char → Option Int
  | [] => some 0
  | e :: cs =>
    if e == 'e' || e == 'E' then
      let n := digits? 10 (dropSign cs)
      if cs.head? == some '-' then n.map fun n => -(n : Int) else n.map fun n => (n : Int)
    else none

/-- The decimal that a text without sign stands for. -/
def decimal? (cs : List Char) : Option Decimal :=
  let whole := cs.takeWhile Char.isDigit
  let rest := cs.drop whole.length
  let (fraction, rest) := match rest with
    | '.' :: cs => (cs.takeWhile Char.isDigit, cs.dropWhile Char.isDigit)
    | cs => ([], cs)
  if whole.isEmpty && fraction.isEmpty then none
  else (exponent? rest).map fun e => ⟨whole ++ fraction, e - fraction.length⟩

/-- The decimal does not round to infinity as a double. -/
def Decimal.isFinite (d : Decimal) : Bool :=
  let ds := d.digits.dropWhile (· == '0')
  let point := (ds.length : Int) + d.exponent
  if ds.isEmpty || point < 309 then true
  else if 309 < point then false
  else
    let n := ds.foldl (fun n c => 10 * n + (c.toNat - '0'.toNat)) 0
    n * Nat.pow 10 d.exponent.toNat <
      (Nat.pow 2 1024 - Nat.pow 2 970) * Nat.pow 10 (-d.exponent).toNat

/-- A text that a reader takes for a floating-point number. -/
def isFloat (cs : List Char) : Bool :=
  let isInfinity (cs : List Char) : Bool :=
    [".inf", ".Inf", ".INF"].any fun w => w.toList == cs
  isInfinity (dropSign cs) || [".nan", ".NaN", ".NAN"].any (fun w => w.toList == cs) ||
    (decimal? (dropSign cs)).any Decimal.isFinite

/-- A text that would be read as something else if it were written plainly. -/
def looksOther (s : String) : Bool :=
  let cs := s.toList
  cs.isEmpty || isNullWord s || (bool? s).isSome || isZeroPadded cs ||
    (int? s).any (fun n => -0x80000000000000000000000000000000 ≤ n &&
      n < 0x100000000000000000000000000000000) ||
    isFloat cs

end InstrGraph.Yaml

/-!
# The shortest decimal that reads back

A finite double is a natural number times a power of two. The reals that round to it form an
interval around it, whose ends belong to it exactly when the significand is even. `shortest` finds
the decimal with the fewest digits inside that interval, and of those the one nearest to the
double. The search goes by the number of digits: on each grid only the two neighbours of the
double have to be looked at, because any grid point of the interval puts one of them inside too.

`Layout` says how the digits become text.
-/

namespace InstrGraph.Decimal

/-- The digits of a positive decimal, read as one number, and the power of ten of the last one. -/
structure Digits where
  significand : Nat
  exponent : Int
  deriving DecidableEq, Repr

/-- A positive double: its significand, its power of two, and whether the gap below it is half the
gap above it. -/
structure Binary where
  significand : Nat
  exponent : Int
  narrowBelow : Bool
  deriving DecidableEq, Repr

/-- A positive rational and the ends of the interval that rounds to it, all over one
denominator. -/
structure Neighbourhood where
  value : Nat
  low : Nat
  high : Nat
  denominator : Nat
  closed : Bool
  deriving DecidableEq, Repr

/-- The interval of the reals that round to a double. -/
def Binary.neighbourhood (b : Binary) : Neighbourhood :=
  let scale := Nat.pow 2 (b.exponent - 2).toNat
  { value := 4 * b.significand * scale
    low := (4 * b.significand - (if b.narrowBelow then 1 else 2)) * scale
    high := (4 * b.significand + 2) * scale
    denominator := Nat.pow 2 (2 - b.exponent).toNat
    closed := b.significand % 2 == 0 }

/-- A point over the denominator lies in the interval. -/
def Neighbourhood.holds (n : Neighbourhood) (point scale : Nat) : Bool :=
  let low := n.low * scale
  let high := n.high * scale
  if n.closed then low ≤ point && point ≤ high else low < point && point < high

/-- How many decimal digits a number has. -/
def digitCount (n : Nat) : Nat := (Nat.toDigits 10 n).length

/-- The place of the decimal point: the value lies in `[10 ^ (p - 1), 10 ^ p)`. -/
def Neighbourhood.point (n : Neighbourhood) : Int :=
  if n.value ≥ n.denominator then digitCount (n.value / n.denominator)
  else
    match (List.range 400).find? fun z => n.value * Nat.pow 10 (z + 1) ≥ n.denominator with
    | some z => -(z : Int)
    | none => -400

/-- The decimal of `count` digits that lies in the interval and is nearest to the value; of two
that are as near as each other, the even one. -/
def Neighbourhood.onGrid (n : Neighbourhood) (count : Nat) : Option Digits :=
  let e := n.point - count
  let up := Nat.pow 10 e.toNat
  let down := Nat.pow 10 (-e).toNat
  -- the value is `d * up / down` for a rational `d`
  let below := n.value * down / (n.denominator * up)
  let place (d : Nat) := d * up * n.denominator
  let inside (d : Nat) := n.holds (place d) down
  let fromBelow := n.value * down - place below
  let fromAbove := place (below + 1) - n.value * down
  let nearer :=
    if fromBelow < fromAbove || fromBelow == fromAbove && below % 2 == 0 then below else below + 1
  if inside below && inside (below + 1) then some ⟨nearer, e⟩
  else if inside below then some ⟨below, e⟩
  else if inside (below + 1) then some ⟨below + 1, e⟩
  else none

/-- The digits with trailing zeros moved into the exponent. -/
def Digits.stripZeros (d : Digits) : Digits :=
  let zeros := ((Nat.toDigits 10 d.significand).reverse.takeWhile (· == '0')).length
  if d.significand = 0 then d else ⟨d.significand / Nat.pow 10 zeros, d.exponent + zeros⟩

/-- The shortest decimal that reads back as the double, and of those the nearest. Seventeen
digits always suffice. -/
def shortest (b : Binary) : Digits :=
  let n := b.neighbourhood
  match (List.range 17).findSome? fun k => n.onGrid (k + 1) with
  | some d => d.stripZeros
  | none => ⟨0, 0⟩

/-- The parts of a double by its bits: its sign, and its magnitude unless that is zero. Only
finite doubles have a decimal. -/
def ofBits (bits : UInt64) : Bool × Option Binary :=
  let n := bits.toNat
  let mantissa : Nat := n % 0x10000000000000
  let biased : Nat := n / 0x10000000000000 % 0x800
  let sign := n / 0x8000000000000000 == 1
  if biased = 0 then
    (sign, if mantissa = 0 then none else some ⟨mantissa, -1074, false⟩)
  else
    (sign, some ⟨0x10000000000000 + mantissa, (biased : Int) - 1075, mantissa == 0 && biased > 1⟩)

/-- How digits become text: the largest place of the decimal point that is written without an
exponent, and the smallest. -/
structure Layout where
  highestPoint : Int
  lowestPoint : Int
  deriving DecidableEq, Repr

/-- The text of a positive decimal. Without an exponent there is always a decimal point; with an
exponent only if there is more than one digit. An exponent has a sign. -/
def Layout.write (l : Layout) (d : Digits) : List Char :=
  let ds := Nat.toDigits 10 d.significand
  let count : Int := ds.length
  let point := count + d.exponent
  if 0 ≤ d.exponent && point ≤ l.highestPoint then
    ds ++ List.replicate d.exponent.toNat '0' ++ ['.', '0']
  else if 0 < point && point ≤ l.highestPoint then
    ds.take point.toNat ++ '.' :: ds.drop point.toNat
  else if l.lowestPoint ≤ point && point ≤ 0 then
    '0' :: '.' :: List.replicate (-point).toNat '0' ++ ds
  else
    let tail := if ds.length ≤ 1 then ds else ds.take 1 ++ '.' :: ds.drop 1
    let sign := if point ≥ 1 then ['+'] else []
    tail ++ 'e' :: sign ++ (toString (point - 1)).toList

/-- The text of a finite double. -/
def Layout.ofBits (l : Layout) (bits : UInt64) : List Char :=
  let (sign, magnitude) := Decimal.ofBits bits
  let text := match magnitude with
    | none => ['0', '.', '0']
    | some b => l.write (shortest b)
  if sign then '-' :: text else text

end InstrGraph.Decimal

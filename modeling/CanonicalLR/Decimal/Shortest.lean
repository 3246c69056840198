import CanonicalLR.Decimal.Binary

/-! The fewest decimal digits that read back to a given double. For each number of digits the two
neighbours of the value on that decimal grid are tried; the first grid with a neighbour inside the
interval that rounds to the value wins, and of two such neighbours the nearer one. -/

namespace CanonicalLR.Decimal

/-- The value `0.digits * 10 ^ point`; the digits neither start nor end with a zero. -/
structure Digits where
  digits : List Char
  point : Int

/-- The interval of reals that round to `value / den`, all three over one denominator. -/
structure Interval where
  low : Nat
  value : Nat
  high : Nat
  den : Nat
  closed : Bool

/-- Half way to the neighbouring doubles; below a power of two the neighbour is half as far. -/
def Interval.of (mantissa : Nat) (exponent : Int) : Interval :=
  let unit := twoPow (exponent - 2).toNat
  let narrow := mantissa == twoPow fractionBits && leastExponent < exponent
  { low := (4 * mantissa - if narrow then 1 else 2) * unit
    value := 4 * mantissa * unit
    high := (4 * mantissa + 2) * unit
    den := twoPow (2 - exponent).toNat
    closed := mantissa % 2 == 0 }

def Interval.inUnitsOf (i : Interval) (p : Int) : Interval :=
  let up := tenPow (-p).toNat
  { low := i.low * up
    value := i.value * up
    high := i.high * up
    den := i.den * tenPow p.toNat
    closed := i.closed }

def Interval.holds (i : Interval) (n : Nat) : Bool :=
  let x := n * i.den
  if i.closed then i.low ≤ x && x ≤ i.high else i.low < x && x < i.high

/-- The neighbour on the grid of whole numbers that lies in the interval; the nearer of two, the
upper one at equal distance. -/
def Interval.onGrid (i : Interval) : Option Nat :=
  let below := i.value / i.den
  match i.holds below && below != 0, i.holds (below + 1) with
  | true, true => some (if 2 * (i.value % i.den) < i.den then below else below + 1)
  | true, false => some below
  | false, true => some (below + 1)
  | false, false => none

/-- The least `k` with `value < 10 ^ k`, found next to an estimate from the binary logarithm. -/
def Interval.point (i : Interval) : Int :=
  let guess := log2Ratio i.value i.den * 30103 / 100000
  let fits (k : Int) : Bool := i.value * tenPow (-k).toNat < i.den * tenPow k.toNat
  if fits guess then guess
  else if fits (guess + 1) then guess + 1
  else if fits (guess + 2) then guess + 2
  else guess + 3

def stripZeros (cs : List Char) : List Char :=
  (cs.reverse.dropWhile (· == '0')).reverse

def Digits.of (n : Nat) (p : Int) : Digits :=
  let cs := Nat.toDigits 10 n
  { digits := stripZeros cs, point := cs.length + p }

/-- The fewest digits for `mantissa * 2 ^ exponent`; seventeen always suffice. -/
def shortest (mantissa : Nat) (exponent : Int) : Digits :=
  let i := Interval.of mantissa exponent
  let k := i.point
  let found := (List.range 17).findSome? fun (n : Nat) =>
    let p := k - (n + 1)
    (i.inUnitsOf p).onGrid.map fun d => Digits.of d p
  found.getD (Digits.of (i.inUnitsOf (k - 17)).value (k - 17))

end CanonicalLR.Decimal

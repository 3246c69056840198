/-! Double precision numbers as exact values, and the double nearest to a fraction. All rounding
is done on natural numbers; of two doubles equally near, the one with the even last bit is taken. -/

namespace CanonicalLR.Decimal

/-- What a double stands for: a finite one is `mantissa * 2 ^ exponent`, with a sign. -/
inductive Binary where
  | nan
  | infinite (negative : Bool)
  | finite (negative : Bool) (mantissa : Nat) (exponent : Int)

def twoPow (n : Nat) : Nat := Nat.pow 2 n

def tenPow (n : Nat) : Nat := Nat.pow 10 n

def fractionBits : Nat := 52

def leastExponent : Int := -1074

def infinityWord : Nat := 2047 * twoPow fractionBits

def signWord (negative : Bool) : Nat := if negative then twoPow 63 else 0

def Binary.ofWord (word : Nat) : Binary :=
  let negative := word.testBit 63
  let magnitude := word % twoPow 63
  let field := magnitude / twoPow fractionBits
  let fraction := magnitude % twoPow fractionBits
  if magnitude = infinityWord then .infinite negative
  else if infinityWord < magnitude then .nan
  else if field = 0 then .finite negative fraction leastExponent
  else .finite negative (twoPow fractionBits + fraction) (leastExponent + (field - 1 : Nat))

def Binary.ofFloat (x : Float) : Binary := .ofWord x.toBits.toNat

/-- The largest `e` with `2 ^ e ≤ num / den`, for positive `num` and `den`. -/
def log2Ratio (num den : Nat) : Int :=
  let e : Int := (num.log2 : Int) - den.log2
  if num * twoPow (-e).toNat < den * twoPow e.toNat then e - 1 else e

/-- The quotient rounded to the nearest natural number, a half to the even one. -/
def roundHalfEven (num den : Nat) : Nat :=
  let q := num / den
  let twice := 2 * (num % den)
  if den < twice || (twice == den && q % 2 == 1) then q + 1 else q

def nearestWord (num den : Nat) : Nat :=
  if num = 0 then 0
  else
    let e := max (log2Ratio num den - fractionBits) leastExponent
    let q := roundHalfEven (num * twoPow (-e).toNat) (den * twoPow e.toNat)
    min ((e - leastExponent).toNat * twoPow fractionBits + q) infinityWord

def floatOfWord (negative : Bool) (word : Nat) : Float :=
  Float.ofBits (UInt64.ofNat (signWord negative + word))

end CanonicalLR.Decimal

import CanonicalLR.Decimal.Binary
import CanonicalLR.Text.Numeral

/-! Reading a decimal number as the nearest double: an optional sign, digits with an optional
point, an optional exponent; or the words for infinity and for no number, in either case. -/

namespace CanonicalLR.Decimal

open CanonicalLR.Text

/-- The double nearest to `digits * 10 ^ exponent`, as a word without sign. Far outside the range
of doubles the power of ten is not formed. -/
def wordOfDecimal (digits : Nat) (exponent : Int) : Nat :=
  let top := (Nat.toDigits 10 digits).length + exponent
  if digits = 0 || top < -330 then 0
  else if 310 < top then infinityWord
  else nearestWord (digits * tenPow exponent.toNat) (tenPow (-exponent).toNat)

inductive ReadError where
  | empty
  | invalid
deriving DecidableEq

def ReadError.message : ReadError → String
  | .empty => "cannot parse float from empty string"
  | .invalid => "invalid float literal"

def cutSign : List Char → Bool × List Char
  | '-' :: cs => (true, cs)
  | '+' :: cs => (false, cs)
  | cs => (false, cs)

def readExponent : List Char → Option Int
  | [] => some 0
  | c :: cs =>
    if c = 'e' || c = 'E' then
      let (negative, digits) := cutSign cs
      (readDigits digits).map fun n => if negative then -(n : Int) else n
    else none

def readMagnitude (cs : List Char) : Option Nat :=
  let whole := cs.takeWhile Char.isDigit
  let rest := cs.dropWhile Char.isDigit
  let (fraction, tail) := match rest with
    | '.' :: more => (more.takeWhile Char.isDigit, more.dropWhile Char.isDigit)
    | _ => ([], rest)
  let digits := whole ++ fraction
  if digits.isEmpty then none
  else
    (readExponent tail).map fun e => wordOfDecimal (natOfDigits digits) (e - fraction.length)

def readUnsigned (cs : List Char) : Option Nat :=
  let lower := String.ofList (cs.map Char.toLower)
  if lower = "inf" || lower = "infinity" then some infinityWord
  else if lower = "nan" then some (infinityWord + twoPow 51)
  else readMagnitude cs

def read (cs : List Char) : Except ReadError Float :=
  if cs.isEmpty then .error .empty
  else
    let (negative, rest) := cutSign cs
    match readUnsigned rest with
    | some word => .ok (floatOfWord negative word)
    | none => .error .invalid

end CanonicalLR.Decimal

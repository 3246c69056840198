import CanonicalLR.Decimal.Shortest

/-! Ways to write a double. A style says for which magnitudes the digits are written out
positionally, and what follows a whole number. -/

namespace CanonicalLR.Decimal

structure Style where
  positional : Int → Bool
  afterWhole : List Char

def Style.plain : Style := ⟨fun _ => true, []⟩

/-- Positionally from `10 ^ (-4)` up to below `10 ^ 16` and always with a point there; all else
with an exponent. -/
def Style.literal : Style := ⟨fun point => -4 < point && point ≤ 16, ['.', '0']⟩

def zeros (n : Nat) : List Char := List.replicate n '0'

def Style.positionalText (style : Style) (d : Digits) : List Char :=
  let size := d.digits.length
  if d.point ≤ 0 then ['0', '.'] ++ zeros (-d.point).toNat ++ d.digits
  else if size ≤ d.point then d.digits ++ zeros (d.point.toNat - size) ++ style.afterWhole
  else d.digits.take d.point.toNat ++ ['.'] ++ d.digits.drop d.point.toNat

def intText (n : Int) : List Char :=
  if n < 0 then '-' :: Nat.toDigits 10 n.natAbs else Nat.toDigits 10 n.natAbs

def exponentText (d : Digits) : List Char :=
  let mark := 'e' :: intText (d.point - 1)
  match d.digits with
  | [] => '0' :: mark
  | [c] => c :: mark
  | c :: cs => c :: '.' :: cs ++ mark

def Style.magnitudeText (style : Style) (mantissa : Nat) (exponent : Int) : List Char :=
  if mantissa = 0 then '0' :: style.afterWhole
  else
    let d := shortest mantissa exponent
    if style.positional d.point then style.positionalText d else exponentText d

def signed (negative : Bool) (cs : List Char) : List Char :=
  if negative then '-' :: cs else cs

def Style.text (style : Style) : Binary → List Char
  | .nan => ['N', 'a', 'N']
  | .infinite negative => signed negative ['i', 'n', 'f']
  | .finite negative mantissa exponent => signed negative (style.magnitudeText mantissa exponent)

def Style.write (style : Style) (x : Float) : String :=
  String.ofList (style.text (.ofFloat x))

end CanonicalLR.Decimal

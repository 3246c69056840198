/-! Reading whole numbers: decimal digits, an optional plus sign in front, and a largest value. -/

namespace CanonicalLR.Text

def natOfDigits (cs : List Char) : Nat :=
  cs.foldl (fun n c => 10 * n + (c.toNat - '0'.toNat)) 0

def readDigits (cs : List Char) : Option Nat :=
  if cs.isEmpty || !cs.all Char.isDigit then none else some (natOfDigits cs)

def readNat (limit : Nat) (cs : List Char) : Option Nat :=
  let digits := match cs with
    | '+' :: rest => rest
    | _ => cs
  (readDigits digits).filter (· ≤ limit)

def maxUInt32 : Nat := 4294967295

def maxUInt64 : Nat := 18446744073709551615

def maxInt32 : Nat := 2147483647

def maxInt64 : Nat := 9223372036854775807

end CanonicalLR.Text

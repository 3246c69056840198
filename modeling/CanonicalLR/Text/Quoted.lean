import CanonicalLR.Text.Hidden

/-! Quoted text as messages show it: between double quotes, with backslash escapes for quotes,
backslashes and the usual controls, and with every other hidden character spelled by its number. -/

namespace CanonicalLR.Text

/-- The spelling of one character inside a quoted text. An apostrophe stands for itself. -/
def escape (c : Char) : List Char :=
  match c with
  | '"' => ['\\', '"']
  | '\\' => ['\\', '\\']
  | '\n' => ['\\', 'n']
  | '\r' => ['\\', 'r']
  | '\t' => ['\\', 't']
  | '\x00' => ['\\', '0']
  | c =>
    if isHidden c then ['\\', 'u', '\x7b'] ++ Nat.toDigits 16 c.toNat ++ ['\x7d'] else [c]

def quoteChars (cs : List Char) : List Char :=
  '"' :: cs.flatMap escape ++ ['"']

def quote (s : String) : String :=
  String.ofList (quoteChars s.toList)

end CanonicalLR.Text

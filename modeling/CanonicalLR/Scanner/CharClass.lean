/-! Classes of characters, and the modes that bend them: inside a bracketed reference signs, dots
and exponent letters count as letters. -/

namespace CanonicalLR

inductive CharClass where
  | quote
  | sign
  | symbol
  | exponent
  | alpha
  | digit
  | dot
  | whitespace
  | error
deriving DecidableEq

def symbolChars : List Char :=
  ['(', ')', '[', ']', '\x7b', '\x7d', '<', '>', ':', ';', ',', '*', '/', '^', '%', '=', '!', '&',
    '|', '?', '~', '@', '$']

def CharClass.of (c : Char) : CharClass :=
  if c = '"' then quote
  else if c = '+' || c = '-' then sign
  else if c = 'e' || c = 'E' then exponent
  else if c.isAlpha || c = '_' then alpha
  else if c.isDigit then digit
  else if c = '.' then dot
  else if c = ' ' || c = '\t' || c = '\n' || c = '\r' then whitespace
  else if symbolChars.contains c then symbol
  else error

/-- Where the scanner is: outside references, in the name or in the spec of a reference, or in the
time index inside one. -/
inductive Mode where
  | normal
  | bracket
  | spec
  | timeSpec
deriving DecidableEq

namespace Mode

def name : Mode → String
  | normal => "Normal"
  | bracket => "Bracket"
  | spec => "Spec"
  | timeSpec => "TimeSpec"

def inReference (m : Mode) : Bool := m = bracket || m = spec

def classify (m : Mode) (c : Char) : CharClass :=
  match CharClass.of c with
  | .sign | .dot | .exponent => if m.inReference then .alpha else CharClass.of c
  | other => other

end Mode

end CanonicalLR

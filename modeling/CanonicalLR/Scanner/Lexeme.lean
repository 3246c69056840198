import CanonicalLR.Scanner.CharClass

/-! The automaton that recognises one lexeme over character classes, and the longest lexeme at the
front of a text. -/

namespace CanonicalLR.Scanner

inductive Phase where
  | start
  | inString
  | sign
  | symbol
  | ident
  | int
  | dot
  | blank
  | string
  | fraction
  | exponentMark
  | exponentSign
  | exponentDigits
deriving DecidableEq

inductive Lexeme where
  | punct
  | ident
  | int
  | float
  | blank
  | string
deriving DecidableEq

def Phase.next : Phase → CharClass → Option Phase
  | start, .quote => some inString
  | start, .sign => some sign
  | start, .symbol => some symbol
  | start, .exponent | start, .alpha => some ident
  | start, .digit => some int
  | start, .dot => some dot
  | start, .whitespace => some blank
  | inString, .quote => some string
  | inString, _ => some inString
  | ident, .exponent | ident, .alpha | ident, .digit | ident, .dot => some ident
  | int, .exponent => some exponentMark
  | int, .digit => some int
  | int, .dot => some fraction
  | dot, .digit => some fraction
  | blank, .whitespace => some blank
  | fraction, .exponent => some exponentMark
  | fraction, .digit => some fraction
  | exponentMark, .sign => some exponentSign
  | exponentMark, .digit => some exponentDigits
  | exponentSign, .digit => some exponentDigits
  | exponentDigits, .digit => some exponentDigits
  | _, _ => none

def Phase.accepts : Phase → Option Lexeme
  | sign | symbol | dot => some .punct
  | ident => some .ident
  | int => some .int
  | blank => some .blank
  | string => some .string
  | fraction | exponentDigits => some .float
  | start | inString | exponentMark | exponentSign => none

/-- A run of the automaton: how many characters it took, and the longest lexeme on the way with
its length. -/
structure Munch where
  taken : Nat
  best : Option (Nat × Lexeme)
deriving DecidableEq

def munchFrom (mode : Mode) : Phase → Munch → List Char → Munch
  | _, m, [] => m
  | phase, m, c :: rest =>
    match phase.next (mode.classify c) with
    | none => m
    | some phase =>
      let taken := m.taken + 1
      let best := match phase.accepts with
        | some lexeme => some (taken, lexeme)
        | none => m.best
      munchFrom mode phase ⟨taken, best⟩ rest

def munch (mode : Mode) (text : List Char) : Munch :=
  munchFrom mode .start ⟨0, none⟩ text

end CanonicalLR.Scanner

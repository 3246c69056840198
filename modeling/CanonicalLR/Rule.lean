import CanonicalLR.Symbol.Registry

/-! Rules of a grammar: a nonterminal and the sequence it derives. -/

namespace CanonicalLR

structure Rule where
  /-- The number by which tree builders know the rule. -/
  id : Nat
  lhs : SymbolId
  rhs : List SymbolId
  /-- A precedence that stands in for that of the rightmost terminal. -/
  prec : Option Int := none
  /-- The place of the rule in its grammar. -/
  index : Nat := 0
deriving DecidableEq

namespace Rule

def sameProduction (a b : Rule) : Bool := a.lhs == b.lhs && a.rhs == b.rhs

def text (rule : Rule) (r : Registry) : String :=
  let rhs := r.namesText " " rule.rhs
  if rhs.isEmpty then r.name rule.lhs ++ " ->" else r.name rule.lhs ++ " -> " ++ rhs

end Rule

end CanonicalLR

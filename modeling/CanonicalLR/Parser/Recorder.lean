import CanonicalLR.Parser.Basic

/-! A tree builder that numbers its nodes and records every reduction. It can be told to refuse
the reductions of some rules, or to build no node for them. -/

namespace CanonicalLR

structure Reduction where
  rule : Rule
  lhs : SymbolId
  span : Span
  children : List (Child Nat)

structure Recorder where
  /-- The reductions so far, the last one first. -/
  reductions : List Reduction := []
  nodes : Nat := 0

namespace Recorder

def apply (refused ignored : List Nat) (r : Recorder) (lhs : SymbolId) (rule : Rule)
    (children : List (Child Nat)) (span : Span) : Except ParseError (Option Nat) × Recorder :=
  let r := { r with reductions := ⟨rule, lhs, span, children⟩ :: r.reductions }
  if refused.contains rule.id then (.error (.semantic span s!"rule {rule.id} rejected"), r)
  else if ignored.contains rule.id then (.ok none, r)
  else (.ok (some r.nodes), { r with nodes := r.nodes + 1 })

/-- Refuses the rules with the first ids, ignores those with the second. -/
def builder (refused ignored : List Nat) : Builder Recorder Nat := ⟨apply refused ignored⟩

end Recorder

end CanonicalLR

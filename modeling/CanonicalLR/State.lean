import CanonicalLR.Symbol.Map
import CanonicalLR.Symbol.Registry

/-! States of the finished automaton: where to go after a symbol, and by which rule to reduce
before a terminal. -/

namespace CanonicalLR

structure State where
  shifts : SymbolMap Nat := {}
  reduces : SymbolMap Nat := {}
deriving DecidableEq, Inhabited

namespace State

def shift? (state : State) (s : SymbolId) : Option Nat := state.shifts.get? s

def reduce? (state : State) (s : SymbolId) : Option Nat := state.reduces.get? s

/-- The terminals with an action, each once and in ascending order. -/
def expected (state : State) (r : Registry) : List SymbolId :=
  (SymbolSet.ofList (state.shifts.keys ++ state.reduces.keys)).toList.filter r.isTerminal

end State

end CanonicalLR

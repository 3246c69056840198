import CanonicalLR.Rule
import CanonicalLR.Saturate

/-! Which symbols derive the empty sequence, and which terminals can start what a symbol derives.
Both grow together, rule by rule, until a pass over all rules adds nothing. -/

namespace CanonicalLR

structure FirstFacts where
  nullable : SymbolSet := {}
  first : List SymbolSet
deriving DecidableEq

namespace FirstFacts

def firstOf (f : FirstFacts) (s : SymbolId) : SymbolSet := f.first.getD s.val {}

def initial (r : Registry) : FirstFacts :=
  { first := r.toList.map fun (s, symbol) => if symbol.isTerminal then .single s else {} }

def mergeFirst (f : FirstFacts) (lhs : SymbolId) (set : SymbolSet) : FirstFacts :=
  { f with first := f.first.modify lhs.val (·.merge set) }

/-- What a rule adds: the FIRST sets of its symbols up to the first one that is not nullable; if
there is none, its left-hand side is nullable. -/
def absorb (lhs : SymbolId) : List SymbolId → FirstFacts → FirstFacts
  | [], f => { f with nullable := f.nullable.insert lhs }
  | s :: rest, f =>
    let f := f.mergeFirst lhs (f.firstOf s)
    if f.nullable.contains s then absorb lhs rest f else f

def pass (rules : List Rule) (f : FirstFacts) : FirstFacts :=
  rules.foldl (fun f rule => absorb rule.lhs rule.rhs f) f

/-- Every pass but the last adds a nullable symbol or a member of a FIRST set. -/
def rounds (r : Registry) : Nat := r.size + r.size * maxSymbols + 1

def of (r : Registry) (rules : List Rule) : FirstFacts :=
  saturate (pass rules) (rounds r) (initial r)

end FirstFacts

structure Analysis where
  symbols : Registry
  rules : List Rule
  facts : FirstFacts

namespace Analysis

def of (symbols : Registry) (rules : List Rule) : Analysis := ⟨symbols, rules, .of symbols rules⟩

def isNullable (a : Analysis) (s : SymbolId) : Bool := a.facts.nullable.contains s

def first (a : Analysis) (s : SymbolId) : SymbolSet := a.facts.firstOf s

def rulesFor (a : Analysis) (lhs : SymbolId) : List Rule := a.rules.filter (·.lhs == lhs)

def allNullable (a : Analysis) (ids : List SymbolId) : Bool := ids.all a.isNullable

def firstOfAll (a : Analysis) : List SymbolId → SymbolSet
  | [] => {}
  | s :: rest => if a.isNullable s then (a.first s).merge (a.firstOfAll rest) else a.first s

def rhs (a : Analysis) (rule : Nat) : List SymbolId := ((a.rules[rule]?).map (·.rhs)).getD []

def lhsName (a : Analysis) (rule : Nat) : String :=
  ((a.rules[rule]?).map fun r => a.symbols.name r.lhs).getD ""

end Analysis

end CanonicalLR

import CanonicalLR.Item.Set
import CanonicalLR.State

/-! Grammars over a registry: rules, a start symbol, precedences and associativities, and what
configuring made of them. Rule 0 derives the start symbol from the symbol above it. -/

namespace CanonicalLR

inductive Assoc where
  | left
  | right
  | nonassoc
deriving DecidableEq

def Assoc.name : Assoc → String
  | left => "Left"
  | right => "Right"
  | nonassoc => "NonAssoc"

/-- An item set with the actions chosen for it; `conflicted` if one of them is ambiguous. -/
structure Row where
  set : ItemSet
  actions : State := {}
  conflicted : Bool := false
deriving DecidableEq, Inhabited

structure Grammar where
  symbols : Registry
  rules : List Rule
  start : Option SymbolId
  precedences : SymbolMap Int
  assocs : SymbolMap Assoc
  rows : List Row
  states : List State
  conflicts : List Conflict
deriving DecidableEq

namespace Grammar

def new (symbols : Registry) : Grammar :=
  { symbols
    rules := [{ id := 0, lhs := .start, rhs := [] }]
    start := none
    precedences := {}
    assocs := {}
    rows := []
    states := []
    conflicts := [] }

def reset (g : Grammar) : Grammar := { g with rows := [], states := [], conflicts := [] }

def addRule (g : Grammar) (rule : Rule) : Grammar :=
  { g with rules := g.rules ++ [{ rule with index := g.rules.length }] }.reset

def setStart (g : Grammar) (s : SymbolId) : Grammar :=
  { g with start := some s, rules := g.rules.modify 0 fun rule => { rule with rhs := [s] } }.reset

def setPrecedence (g : Grammar) (s : SymbolId) (level : Int) : Grammar :=
  { g with precedences := g.precedences.insert s level }

def setAssoc (g : Grammar) (s : SymbolId) (assoc : Assoc) : Grammar :=
  { g with assocs := g.assocs.insert s assoc }

def declare (g : Grammar) (assoc : Assoc) (level : Int) (ids : List SymbolId) : Grammar :=
  ids.foldl (fun g s => (g.setPrecedence s level).setAssoc s assoc) g

def precedence? (g : Grammar) (s : SymbolId) : Option Int := g.precedences.get? s

def assoc? (g : Grammar) (s : SymbolId) : Option Assoc := g.assocs.get? s

def rulePrecedence? (g : Grammar) (rule : Rule) : Option Int :=
  rule.prec.or ((g.symbols.lastTerminal? rule.rhs).bind g.precedence?)

def isConfigured (g : Grammar) : Bool := !g.states.isEmpty

def state (g : Grammar) (i : Nat) : State := g.states.getD i {}

def analysis (g : Grammar) : Analysis := .of g.symbols g.rules

def install (g : Grammar) (states : List State) : Grammar :=
  { g with rows := [], conflicts := [], states }

end Grammar

end CanonicalLR

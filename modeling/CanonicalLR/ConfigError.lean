import CanonicalLR.Symbol.Basic

/-! What can go wrong while symbols are registered and a grammar is configured. -/

namespace CanonicalLR

inductive Conflict where
  | shiftReduce (state : Nat) (symbol : String) (rule : Nat) (ruleText : String)
  | reduceReduce (state : Nat) (symbol : String) (rules : List Nat)
deriving DecidableEq

namespace Conflict

def state : Conflict → Nat
  | shiftReduce state .. | reduceReduce state .. => state

def symbol : Conflict → String
  | shiftReduce _ symbol .. | reduceReduce _ symbol _ => symbol

def rules : Conflict → List Nat
  | shiftReduce _ _ rule _ => [rule]
  | reduceReduce _ _ rules => rules

def message : Conflict → String
  | shiftReduce state symbol rule ruleText =>
    s!"shift/reduce conflict in state {state} on {Text.quote symbol}"
      ++ s!" (reduce by rule {rule}: {ruleText})"
  | reduceReduce state symbol rules =>
    let list := String.intercalate ", " (rules.map toString)
    s!"reduce/reduce conflict in state {state} on {Text.quote symbol} between rules [{list}]"

end Conflict

inductive ConfigError where
  | tooManySymbols
  | duplicateSymbol (name : String)
  | noStartSymbol
  | startNotNonterminal (name : String)
  | terminalLhs (ruleId : Nat) (name : String)
  | conflicts (all : List Conflict)
deriving DecidableEq

def ConfigError.message : ConfigError → String
  | tooManySymbols => s!"symbol table is full ({maxSymbols} symbols)"
  | duplicateSymbol name => s!"symbol {Text.quote name} is already registered with a different kind"
  | noStartSymbol => "no start symbol set"
  | startNotNonterminal name => s!"start symbol {Text.quote name} is not a nonterminal"
  | terminalLhs ruleId name =>
    s!"rule {ruleId} has terminal {Text.quote name} on its left-hand side"
  | conflicts all => s!"{all.length} unresolved conflict(s)"

end CanonicalLR

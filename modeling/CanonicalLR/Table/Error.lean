import CanonicalLR.Text.Quoted

/-! What can go wrong while a parse table is written or read. -/

namespace CanonicalLR

inductive TableFault where
  | missing (what : String)
  | badNumber (what : String) (field : String)
  | outOfOrder (found expected : Nat)
  | beforeAnyState (tag : String)
  | ruleOutOfRange (rule : Nat)
  | unknownRecord (tag : String)
  | trailingFields
  | missingRecord (tag : String)
  | stateCount (declared found : Nat)
  | missingTarget (state next : Nat)
deriving DecidableEq

def TableFault.message : TableFault → String
  | missing what => s!"missing {what}"
  | badNumber what field => s!"bad {what} {Text.quote field}"
  | outOfOrder found expected => s!"state {found} out of order, expected {expected}"
  | beforeAnyState tag => s!"{tag} before any state"
  | ruleOutOfRange rule => s!"rule {rule} out of range"
  | unknownRecord tag => s!"unknown record {Text.quote tag}"
  | trailingFields => "trailing fields"
  | missingRecord tag => s!"missing {tag} record"
  | stateCount declared found => s!"{declared} states declared, {found} found"
  | missingTarget state next => s!"state {state} shifts to missing state {next}"

inductive TableError where
  | noRoom
  | notText
  | malformed (line : Nat) (fault : TableFault)
  | unknownSymbol (line : Nat) (name : String)
  | ruleCountMismatch (expected found : Nat)
  | notConfigured
  | unwritableName (name : String)
deriving DecidableEq

def TableError.message : TableError → String
  | noRoom => "i/o error: failed to write whole buffer"
  | notText => "i/o error: stream did not contain valid UTF-8"
  | malformed line fault => s!"line {line}: {fault.message}"
  | unknownSymbol line name => s!"line {line}: unknown symbol {Text.quote name}"
  | ruleCountMismatch expected found => s!"table has {found} rules, grammar has {expected}"
  | notConfigured => "grammar is not configured"
  | unwritableName name => s!"nonterminal name {Text.quote name} cannot be written to a table"

end CanonicalLR

import CanonicalLR.Span
import CanonicalLR.Text.Quoted

/-! What can go wrong while one input is scanned and parsed, and the words for it. -/

namespace CanonicalLR

inductive ParseError where
  | lexical (span : Span) (found : String)
  | unexpectedEnd (span : Span)
  /-- A token that no action of the state allows; `expected` names the terminals that are. -/
  | syntactic (span : Span) (found : String) (expected : String)
  | semantic (span : Span) (reason : String)
  | unhandledReduction (span : Span) (ruleId : Nat)
  | notConfigured
deriving DecidableEq

namespace ParseError

def span? : ParseError → Option Span
  | lexical span _ | unexpectedEnd span | syntactic span _ _ | semantic span _
  | unhandledReduction span _ => some span
  | notConfigured => none

def message : ParseError → String
  | lexical span found => s!"unexpected character {Text.quote found} at {span.text}"
  | unexpectedEnd span => s!"unexpected end of input at {span.text}"
  | syntactic span found expected =>
    s!"unexpected {found} at {span.text}, expected one of: {expected}"
  | semantic span reason => s!"{reason} at {span.text}"
  | unhandledReduction span ruleId =>
    s!"no tree node built for rule id {ruleId} at {span.text}"
  | notConfigured => "grammar is not configured"

end ParseError

end CanonicalLR

import CanonicalLR.Calculator.Builder
import CanonicalLR.Calculator.Eval
import CanonicalLR.Scanner.Source

/-! The calculator: scanning, parsing and evaluating expressions. -/

namespace CanonicalLR.Calculator

def engine (g : Grammar) : Engine Scanner Nat Expr := ⟨g, Scanner.source, builder⟩

def newParser : Parser Scanner Nat := { source := {}, builder := 0 }

inductive CalcError where
  | parse (e : ParseError)
  | eval (e : EvalError)

namespace CalcError

def message : CalcError → String
  | parse e => e.message
  | eval e => e.message

def span? : CalcError → Option Span
  | parse e => e.span?
  | eval e => some e.span

end CalcError

def eval (fuel : Nat) (text : String) (env : Env) : Option (Except CalcError Float) :=
  ((engine defaultGrammar).parse fuel newParser text).map fun (result, _) =>
    match result with
    | .error e => .error (.parse e)
    | .ok n => (env.eval n).mapError .eval

end CanonicalLR.Calculator

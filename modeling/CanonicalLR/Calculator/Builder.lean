import CanonicalLR.Calculator.Expr
import CanonicalLR.Calculator.Grammar
import CanonicalLR.Parser.Basic

/-! Building expression trees from the reductions of the calculator grammar. -/

namespace CanonicalLR.Calculator

abbrev Children := List (Child Expr)

def takeNode (span : Span) : Children → Except ParseError (Expr × Children)
  | .node n :: rest => .ok (n, rest)
  | _ => .error (.semantic span "expected a subexpression")

def takePayload (span : Span) : Children → Except ParseError (Payload × Children)
  | .token t :: rest => .ok (t.payload, rest)
  | _ => .error (.semantic span "expected a token")

def takeIdent (span : Span) (cs : Children) : Except ParseError (String × Children) := do
  match ← takePayload span cs with
  | (.ident name, rest) => .ok (name, rest)
  | _ => .error (.semantic span "expected an identifier")

def buildBinary (op : Operator) (span : Span) (cs : Children) : Except ParseError Expr := do
  let (lhs, cs) ← takeNode span cs
  let (rhs, _) ← takeNode span (cs.drop 1)
  .ok (.binary op lhs rhs span)

def buildInt (span : Span) (cs : Children) : Except ParseError Expr := do
  match ← takePayload span cs with
  | (.int n, _) => .ok (.int n span)
  | _ => .error (.semantic span "expected an integer")

def buildFloat (span : Span) (cs : Children) : Except ParseError Expr := do
  match ← takePayload span cs with
  | (.float x, _) => .ok (.float x span)
  | _ => .error (.semantic span "expected a number")

def buildCall (span : Span) (cs : Children) : Except ParseError Expr := do
  let (name, cs) ← takeIdent span cs
  match Function.ofName? name with
  | none => .error (.semantic span s!"unknown function {name}")
  | some f => do
    let (arg, _) ← takeNode span (cs.drop 1)
    .ok (.call f arg span)

def buildEnclosed (span : Span) (cs : Children) : Except ParseError Expr := do
  let (inner, _) ← takeNode span (cs.drop 1)
  .ok (inner.withSpan span)

def takeKey (span : Span) (cs : Children) : Except ParseError (Key × Children) := do
  let (name, cs) ← takeIdent span cs
  let (spec, cs) ← takeIdent span (cs.drop 1)
  .ok (⟨name, some spec⟩, cs)

def build (span : Span) (cs : Children) : Form → Except ParseError Expr
  | .add => buildBinary .add span cs
  | .sub => buildBinary .sub span cs
  | .mul => buildBinary .mul span cs
  | .div => buildBinary .div span cs
  | .pow => buildBinary .pow span cs
  | .neg => do
    let (e, _) ← takeNode span (cs.drop 1)
    .ok (.neg e span)
  | .paren | .ref => buildEnclosed span cs
  | .int => buildInt span cs
  | .float => buildFloat span cs
  | .var => do
    let (name, _) ← takeIdent span cs
    .ok (.var name span)
  | .call => buildCall span cs
  | .refName => do
    let (name, _) ← takeIdent span cs
    .ok (.latest ⟨name, none⟩ span)
  | .refSpec => do
    let (key, _) ← takeKey span cs
    .ok (.latest key span)
  | .refTime => do
    let (key, cs) ← takeKey span cs
    let (time, _) ← takeNode span (cs.drop 1)
    .ok (.sample key time span)

def applyRule (nodes ruleId : Nat) (cs : Children) (span : Span) :
    Except ParseError (Option Expr) × Nat :=
  match Form.ofId? ruleId with
  | none => (.ok none, nodes)
  | some f =>
    match build span cs f with
    | .error e => (.error e, nodes)
    | .ok n => (.ok (some n), nodes + 1)

def builder : Builder Nat Expr := ⟨fun nodes _ rule cs span => applyRule nodes rule.id cs span⟩

end CanonicalLR.Calculator

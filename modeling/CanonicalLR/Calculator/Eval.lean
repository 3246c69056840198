import CanonicalLR.Calculator.Expr
import CanonicalLR.Text.Quoted

/-! Evaluation of expressions over named variables and recorded series of samples. -/

namespace CanonicalLR.Calculator

inductive EvalError where
  | unknownVariable (name : String) (span : Span)
  | unknownReference (key : String) (span : Span)
  | timeIndex (key : String) (index : Float) (span : Span)
  | divisionByZero (span : Span)

namespace EvalError

def span : EvalError → Span
  | unknownVariable _ span | unknownReference _ span | timeIndex _ _ span
  | divisionByZero span => span

def message : EvalError → String
  | unknownVariable name span => s!"unknown variable {Text.quote name} at {span.text}"
  | unknownReference key span => s!"unknown reference {Text.quote key} at {span.text}"
  | timeIndex key index span =>
    let number := Decimal.Style.plain.write index
    s!"time index {number} out of range for {Text.quote key} at {span.text}"
  | divisionByZero span => s!"division by zero at {span.text}"

end EvalError

/-- Changes the value of a name where it stands, or adds it behind the others. -/
def upsert {α : Type} (name : String) (change : Option α → α) :
    List (String × α) → List (String × α)
  | [] => [(name, change none)]
  | (key, value) :: rest =>
    if key = name then (key, change (some value)) :: rest
    else (key, value) :: upsert name change rest

structure Env where
  vars : List (String × Float) := []
  series : List (String × List Float) := []

namespace Env

def set (env : Env) (name : String) (value : Float) : Env :=
  { env with vars := upsert name (fun _ => value) env.vars }

def get? (env : Env) (name : String) : Option Float := env.vars.lookup name

def record (env : Env) (key : String) (value : Float) : Env :=
  { env with series := upsert key (fun samples => samples.getD [] ++ [value]) env.series }

def samples (env : Env) (key : String) : List Float := (env.series.lookup key).getD []

end Env

def Operator.apply (span : Span) (a b : Float) : Operator → Except EvalError Float
  | add => .ok (a + b)
  | sub => .ok (a - b)
  | mul => .ok (a * b)
  | div => if b == 0.0 then .error (.divisionByZero span) else .ok (a / b)
  | pow => .ok (a.pow b)

def Function.apply (x : Float) : Function → Float
  | sin => x.sin
  | cos => x.cos
  | sqrt => x.sqrt
  | abs => x.abs
  | exp => x.exp
  | log => x.log

/-- The sample at a whole index within the series; `span` is that of the index. -/
def sampleAt (key : String) (samples : List Float) (index : Float) (span : Span) :
    Except EvalError Float :=
  let inRange := index.floor == index && index >= 0.0 && index < Float.ofNat samples.length
  match samples[index.toUInt64.toNat]?, inRange with
  | some x, true => .ok x
  | _, _ => .error (.timeIndex key index span)

namespace Env

def eval (env : Env) : Expr → Except EvalError Float
  | .int n _ => .ok (Float.ofInt n)
  | .float x _ => .ok x
  | .var name span =>
    match env.get? name with
    | some x => .ok x
    | none => .error (.unknownVariable name span)
  | .neg e _ => do
    let x ← env.eval e
    .ok (-x)
  | .binary op lhs rhs span => do
    let a ← env.eval lhs
    let b ← env.eval rhs
    op.apply span a b
  | .call f arg _ => do
    let x ← env.eval arg
    .ok (f.apply x)
  | .latest key span =>
    match (env.samples key.text).getLast? with
    | some x => .ok x
    | none => .error (.unknownReference key.text span)
  | .sample key time span =>
    let samples := env.samples key.text
    if samples.isEmpty then .error (.unknownReference key.text span)
    else do
      let index ← env.eval time
      sampleAt key.text samples index time.span

end Env

end CanonicalLR.Calculator

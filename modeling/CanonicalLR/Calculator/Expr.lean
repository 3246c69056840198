import CanonicalLR.Decimal.Style
import CanonicalLR.Span

/-! Expression trees of the calculator, each node with the range of source text it stands for. -/

namespace CanonicalLR.Calculator

inductive Operator where
  | add
  | sub
  | mul
  | div
  | pow
deriving DecidableEq

def Operator.symbol : Operator → Char
  | add => '+'
  | sub => '-'
  | mul => '*'
  | div => '/'
  | pow => '^'

inductive Function where
  | sin
  | cos
  | sqrt
  | abs
  | exp
  | log
deriving DecidableEq

namespace Function

def all : List Function := [sin, cos, sqrt, abs, exp, log]

def name : Function → String
  | sin => "sin"
  | cos => "cos"
  | sqrt => "sqrt"
  | abs => "abs"
  | exp => "exp"
  | log => "log"

def ofName? (s : String) : Option Function := all.find? (·.name == s)

end Function

structure Key where
  name : String
  spec : Option String
deriving DecidableEq

def Key.text (k : Key) : String :=
  match k.spec with
  | some spec => k.name ++ ":" ++ spec
  | none => k.name

inductive Expr where
  | int (n : Int) (span : Span)
  | float (x : Float) (span : Span)
  | var (name : String) (span : Span)
  | neg (e : Expr) (span : Span)
  | binary (op : Operator) (lhs rhs : Expr) (span : Span)
  | call (f : Function) (arg : Expr) (span : Span)
  | latest (key : Key) (span : Span)
  | sample (key : Key) (time : Expr) (span : Span)

namespace Expr

def span : Expr → Span
  | int _ span | float _ span | var _ span | neg _ span | binary _ _ _ span | call _ _ span
  | latest _ span | sample _ _ span => span

def withSpan (span : Span) : Expr → Expr
  | int n _ => int n span
  | float x _ => float x span
  | var name _ => var name span
  | neg e _ => neg e span
  | binary op lhs rhs _ => binary op lhs rhs span
  | call f arg _ => call f arg span
  | latest key _ => latest key span
  | sample key time _ => sample key time span

def text : Expr → String
  | int n _ => toString n
  | float x _ => Decimal.Style.literal.write x
  | var name _ => name
  | neg e _ => "(-" ++ e.text ++ ")"
  | binary op lhs rhs _ => "(" ++ lhs.text ++ op.symbol.toString ++ rhs.text ++ ")"
  | call f arg _ => f.name ++ "(" ++ arg.text ++ ")"
  | latest key _ => "<" ++ key.text ++ ">"
  | sample key time _ => "<" ++ key.text ++ "[" ++ time.text ++ "]>"

end Expr

end CanonicalLR.Calculator

import CanonicalLR.Grammar.Configure
import CanonicalLR.Table.Reader

/-! The grammar of the calculator. Sums bind at 10 and products at 20, both to the left; powers
bind at 30 and to the right. The level of the unary minus can be chosen. -/

namespace CanonicalLR.Calculator

inductive Form where
  | add
  | sub
  | mul
  | div
  | pow
  | neg
  | paren
  | int
  | float
  | var
  | call
  | ref
  | refName
  | refSpec
  | refTime
deriving DecidableEq

namespace Form

def all : List Form :=
  [add, sub, mul, div, pow, neg, paren, int, float, var, call, ref, refName, refSpec, refTime]

def id : Form → Nat
  | add => 1
  | sub => 2
  | mul => 3
  | div => 4
  | pow => 5
  | neg => 6
  | paren => 7
  | int => 8
  | float => 9
  | var => 10
  | call => 11
  | ref => 12
  | refName => 13
  | refSpec => 14
  | refTime => 15

def ofId? (n : Nat) : Option Form := all.find? (·.id == n)

theorem ofId?_id (f : Form) : ofId? f.id = some f := by
  cases f <;> decide

end Form

/-- The level of the unary minus unless another is chosen: `-2^2` is `-(2^2)`. -/
def defaultNegLevel : Int := 25

namespace Vocabulary

def expr : SymbolId := ⟨2, by decide⟩
def reference : SymbolId := ⟨3, by decide⟩
def plus : SymbolId := ⟨4, by decide⟩
def minus : SymbolId := ⟨5, by decide⟩
def star : SymbolId := ⟨6, by decide⟩
def slash : SymbolId := ⟨7, by decide⟩
def caret : SymbolId := ⟨8, by decide⟩
def lparen : SymbolId := ⟨9, by decide⟩
def rparen : SymbolId := ⟨10, by decide⟩
def less : SymbolId := ⟨11, by decide⟩
def greater : SymbolId := ⟨12, by decide⟩
def colon : SymbolId := ⟨13, by decide⟩
def lbracket : SymbolId := ⟨14, by decide⟩
def rbracket : SymbolId := ⟨15, by decide⟩
def int : SymbolId := ⟨16, by decide⟩
def float : SymbolId := ⟨17, by decide⟩
def ident : SymbolId := ⟨18, by decide⟩

def charSymbol (c : Char) : Symbol := ⟨c.toString, .terminal c.val⟩

def kindSymbol (k : TokenKind) : Symbol := ⟨k.name, .terminal k.type⟩

def registry : Registry :=
  ⟨Registry.new.symbols
    ++ [⟨"Expr", .nonterminal⟩, ⟨"Ref", .nonterminal⟩]
    ++ ['+', '-', '*', '/', '^', '(', ')', '<', '>', ':', '[', ']'].map charSymbol
    ++ [kindSymbol .int, kindSymbol .float, kindSymbol .ident]⟩

end Vocabulary

open Vocabulary in
def Form.sides : Form → SymbolId × List SymbolId
  | add => (expr, [expr, plus, expr])
  | sub => (expr, [expr, minus, expr])
  | mul => (expr, [expr, star, expr])
  | div => (expr, [expr, slash, expr])
  | pow => (expr, [expr, caret, expr])
  | neg => (expr, [minus, expr])
  | paren => (expr, [lparen, expr, rparen])
  | int => (expr, [Vocabulary.int])
  | float => (expr, [Vocabulary.float])
  | var => (expr, [ident])
  | call => (expr, [ident, lparen, expr, rparen])
  | ref => (expr, [less, reference, greater])
  | refName => (reference, [ident])
  | refSpec => (reference, [ident, colon, ident])
  | refTime => (reference, [ident, colon, ident, lbracket, expr, rbracket])

def Form.rule (negLevel : Int) (f : Form) : Rule :=
  { id := f.id
    lhs := f.sides.1
    rhs := f.sides.2
    prec := if f = .neg then some negLevel else none }

open Vocabulary in
def rawGrammar (negLevel : Int) : Grammar :=
  let g := (Form.all.map (Form.rule negLevel)).foldl Grammar.addRule (.new registry)
  (((g.setStart expr).declare .left 10 [plus, minus]).declare .left 20 [star, slash]).declare
    .right 30 [caret]

def grammar (negLevel : Int) : Except ConfigError Grammar := (rawGrammar negLevel).configured

def loadGrammar (table : String) : Except TableError Grammar :=
  Table.load (rawGrammar defaultNegLevel) table

def defaultGrammar : Grammar := (rawGrammar defaultNegLevel).afterConfigure

end CanonicalLR.Calculator

import CanonicalLR.Decimal.Style
import CanonicalLR.Span
import CanonicalLR.Text.Quoted

/-! Tokens. A token's type is a number: below 256 it is the code of a single character, from 256
on it is a kind of token. The kinds below are those of the scanner; other sources of tokens may
use any other number. -/

namespace CanonicalLR

abbrev TokenType := UInt32

def firstKindType : TokenType := 256

inductive TokenKind where
  | int
  | float
  | str
  | bool
  | ident
  | finish
  | whitespace
deriving DecidableEq

namespace TokenKind

def all : List TokenKind := [int, float, str, bool, ident, finish, whitespace]

def type : TokenKind → TokenType
  | int => 256
  | float => 257
  | str => 258
  | bool => 259
  | ident => 260
  | finish => 261
  | whitespace => 262

def name : TokenKind → String
  | int => "int"
  | float => "float"
  | str => "string"
  | bool => "bool"
  | ident => "ident"
  | finish => "end"
  | whitespace => "whitespace"

def ofType? (t : TokenType) : Option TokenKind := all.find? (·.type == t)

def ofName? (s : String) : Option TokenKind := all.find? (·.name == s)

theorem ofType?_type (k : TokenKind) : ofType? k.type = some k := by
  cases k <;> decide

end TokenKind

inductive Payload where
  | none
  | int (n : Int)
  | float (x : Float)
  | str (s : String)
  | bool (b : Bool)
  | ident (s : String)
deriving DecidableEq

structure Token where
  span : Span
  type : TokenType
  payload : Payload
deriving DecidableEq

def TokenType.char? (t : TokenType) : Option Char :=
  if t < firstKindType then some (Char.ofNat t.toNat) else none

namespace Token

def punct (span : Span) (c : Char) : Token := ⟨span, c.val, .none⟩

def finish (offset : Nat) : Token := ⟨.single offset, TokenKind.finish.type, .none⟩

def kind? (t : Token) : Option TokenKind := TokenKind.ofType? t.type

def char? (t : Token) : Option Char := TokenType.char? t.type

def isEnd (t : Token) : Bool := t.type == TokenKind.finish.type

def isTrivia (t : Token) : Bool := t.type == TokenKind.whitespace.type

def bareText (t : Token) : String :=
  match t.char?, t.kind? with
  | some c, _ => "'" ++ c.toString ++ "'"
  | none, some kind => kind.name
  | none, none => "token type " ++ toString t.type.toNat

def text (t : Token) : String :=
  match t.payload with
  | .none => t.bareText
  | .int n => "int " ++ toString n
  | .float x => "float " ++ Decimal.Style.plain.write x
  | .str s => "string " ++ Text.quote s
  | .bool b => "bool " ++ toString b
  | .ident s => "ident " ++ s

end Token

end CanonicalLR

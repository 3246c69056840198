import CanonicalLR.Token

/-! Grammar symbols. A symbol is named by its number in a registry, and a registry has room for
64 of them. -/

namespace CanonicalLR

abbrev maxSymbols : Nat := 64

abbrev SymbolId := Fin maxSymbols

namespace SymbolId

def finish : SymbolId := ⟨0, by decide⟩

def start : SymbolId := ⟨1, by decide⟩

def ofNat? (n : Nat) : Option SymbolId :=
  if h : n < maxSymbols then some ⟨n, h⟩ else none

def all : List SymbolId := List.finRange maxSymbols

end SymbolId

inductive SymbolKind where
  | terminal (type : TokenType)
  | nonterminal
deriving DecidableEq

def SymbolKind.text : SymbolKind → String
  | terminal type => s!"Terminal({type.toNat})"
  | nonterminal => "NonTerminal"

structure Symbol where
  name : String
  kind : SymbolKind
deriving DecidableEq

def Symbol.isTerminal (s : Symbol) : Bool :=
  match s.kind with
  | .terminal _ => true
  | .nonterminal => false

def Symbol.type? (s : Symbol) : Option TokenType :=
  match s.kind with
  | .terminal type => some type
  | .nonterminal => none

def TokenType.defaultName (t : TokenType) : String :=
  match TokenKind.ofType? t, TokenType.char? t with
  | some kind, _ => kind.name
  | none, some c => c.toString
  | none, none => s!"t{t.toNat}"

end CanonicalLR

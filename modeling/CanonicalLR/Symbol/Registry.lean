import CanonicalLR.ConfigError
import CanonicalLR.Symbol.Set

/-! The registry of symbols. Symbols are numbered in the order of their registration; a name
belongs to one symbol, and so does a terminal type. The end of the input and the symbol above the
start symbol are always there. -/

namespace CanonicalLR

structure Registry where
  symbols : List Symbol
deriving DecidableEq

namespace Registry

def startName : String := "$start"

def new : Registry :=
  ⟨[⟨TokenKind.finish.name, .terminal TokenKind.finish.type⟩, ⟨startName, .nonterminal⟩]⟩

def size (r : Registry) : Nat := r.symbols.length

def get? (r : Registry) (s : SymbolId) : Option Symbol := r.symbols[s.val]?

def byName? (r : Registry) (name : String) : Option SymbolId :=
  (r.symbols.findIdx? (·.name == name)).bind SymbolId.ofNat?

def byType? (r : Registry) (type : TokenType) : Option SymbolId :=
  (r.symbols.findIdx? (·.kind == .terminal type)).bind SymbolId.ofNat?

/-- The name of a symbol; the empty text for a number that was not given out. -/
def name (r : Registry) (s : SymbolId) : String := ((r.get? s).map (·.name)).getD ""

def isTerminal (r : Registry) (s : SymbolId) : Bool := ((r.get? s).map (·.isTerminal)).getD false

def toList (r : Registry) : List (SymbolId × Symbol) := SymbolId.all.zip r.symbols

/-- Finds the symbol of this name and kind, or adds it if the name is free. -/
def register (r : Registry) (name : String) (kind : SymbolKind) :
    Except ConfigError (SymbolId × Registry) :=
  match r.byName? name with
  | some s =>
    if (r.get? s).map (·.kind) = some kind then .ok (s, r) else .error (.duplicateSymbol name)
  | none =>
    if h : r.size < maxSymbols then .ok (⟨r.size, h⟩, ⟨r.symbols ++ [⟨name, kind⟩]⟩)
    else .error .tooManySymbols

/-- A terminal with a name. A type that is registered keeps its name. -/
def terminalNamed (r : Registry) (type : TokenType) (name : String) :
    Except ConfigError (SymbolId × Registry) :=
  match r.byType? type with
  | some s => if r.name s = name then .ok (s, r) else .error (.duplicateSymbol name)
  | none => r.register name (.terminal type)

def terminal (r : Registry) (type : TokenType) : Except ConfigError (SymbolId × Registry) :=
  r.terminalNamed type type.defaultName

def nonterminal (r : Registry) (name : String) : Except ConfigError (SymbolId × Registry) :=
  r.register name .nonterminal

def namesText (r : Registry) (separator : String) (ids : List SymbolId) : String :=
  String.intercalate separator (ids.map r.name)

def lastTerminal? (r : Registry) (ids : List SymbolId) : Option SymbolId :=
  ids.reverse.find? r.isTerminal

end Registry

end CanonicalLR

import CanonicalLR.Symbol.IndexMap
import CanonicalLR.Symbol.Registry

/-! The registry of symbols over two maps. A symbol goes into the one under its name, and the number
of a terminal goes into the other under its type; nothing but that ties the two together. -/

namespace CanonicalLR

structure SymbolTable where
  names : IndexMap String Symbol
  types : IndexMap TokenType SymbolId

namespace SymbolTable

/-- What a call answers, with the table behind it. There is nothing if the call breaks off at a
number that is out of range. -/
abbrev Outcome := Option (Except ConfigError SymbolId × SymbolTable)

def size (t : SymbolTable) : Nat := t.names.size

def get? (t : SymbolTable) (s : SymbolId) : Option Symbol := t.names.valueAt? s.val

def byType? (t : SymbolTable) (type : TokenType) : Option SymbolId := t.types.get? type

/-- The symbol of a name, if there is one; nothing if its number is out of range. -/
def byName (t : SymbolTable) (name : String) : Option (Option SymbolId) :=
  match t.names.indexOf? name with
  | none => some none
  | some i => (SymbolId.ofNat? i).map some

/-- The symbols with their numbers; nothing if one of these is out of range. -/
def toList? (t : SymbolTable) : Option (List (SymbolId × Symbol)) :=
  t.names.values.zipIdx.mapM fun (sym, i) => (SymbolId.ofNat? i).map fun s => (s, sym)

def insert (t : SymbolTable) (name : String) (kind : SymbolKind) :
    Option (SymbolId × SymbolTable) := do
  let s ← SymbolId.ofNat? t.names.size
  let types := match kind with
    | .terminal type => t.types.insert type s
    | .nonterminal => t.types
  some (s, { names := t.names.insert name ⟨name, kind⟩, types })

def new : Option SymbolTable := do
  let (_, t) ← insert ⟨.empty, .empty⟩ TokenKind.finish.name (.terminal TokenKind.finish.type)
  let (_, t) ← t.insert Registry.startName .nonterminal
  some t

/-- Finds the symbol of this name and kind, or enters it if the name is free. -/
def register (t : SymbolTable) (name : String) (kind : SymbolKind) : Outcome :=
  match t.names.full? name with
  | some (i, sym) =>
    if sym.kind = kind then (SymbolId.ofNat? i).map fun s => (.ok s, t)
    else some (.error (.duplicateSymbol name), t)
  | none =>
    if maxSymbols ≤ t.names.size then some (.error .tooManySymbols, t)
    else (t.insert name kind).map fun (s, t) => (.ok s, t)

/-- A terminal with a name. A type that is registered keeps its name. -/
def terminalNamed (t : SymbolTable) (type : TokenType) (name : String) : Outcome :=
  match t.types.get? type with
  | some s => (t.get? s).map fun sym =>
      if sym.name = name then (.ok s, t) else (.error (.duplicateSymbol name), t)
  | none => t.register name (.terminal type)

def terminal (t : SymbolTable) (type : TokenType) : Outcome :=
  t.terminalNamed type type.defaultName

def nonterminal (t : SymbolTable) (name : String) : Outcome := t.register name .nonterminal

end SymbolTable

end CanonicalLR

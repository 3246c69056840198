import CanonicalLR.Parser.Basic

/-! A token source that plays back a list of tokens and errors, and then end tokens. -/

namespace CanonicalLR

structure Replay where
  pending : List (Except ParseError Token)
  length : Nat

namespace Replay

def ofTokens (tokens : List Token) : Replay := ⟨tokens.map .ok, tokens.length⟩

def next (r : Replay) : Except ParseError Token × Replay :=
  match r.pending with
  | [] => (.ok (.finish r.length), r)
  | result :: rest => (result, { r with pending := rest })

/-- The list is the input; a text is of no use to this source. -/
def source : Source Replay := ⟨fun r _ => r, next⟩

end Replay

end CanonicalLR

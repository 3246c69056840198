/-! Source positions: a range of character offsets with both ends included. -/

namespace CanonicalLR

structure Span where
  start : Nat
  stop : Nat
deriving DecidableEq, Inhabited

namespace Span

def single (offset : Nat) : Span := ⟨offset, offset⟩

def join (a b : Span) : Span := ⟨min a.start b.start, max a.stop b.stop⟩

def length (s : Span) : Nat := s.stop + 1 - s.start

def slice (s : Span) (chars : List Char) : List Char :=
  (chars.take (s.stop + 1)).drop s.start

def joinAll : List Span → Option Span
  | [] => none
  | s :: rest => some (rest.foldl join s)

def text (s : Span) : String :=
  if s.start = s.stop then s!"offset {s.start}" else s!"offsets {s.start}..={s.stop}"

end Span

end CanonicalLR

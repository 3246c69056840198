import CanonicalLR.Grammar.Basic

/-! The collection of item sets that can be reached from the start item. Sets are explored in the
order in which they were found; a set that equals one found before is not added again. -/

namespace CanonicalLR

/-- An item set with its core, by which it is found again. -/
structure Member where
  core : List (Nat × Nat)
  set : ItemSet
deriving DecidableEq

def Member.of (set : ItemSet) : Member := ⟨set.core, set⟩

structure Collection where
  members : List Member
  shifts : List (SymbolMap Nat) := []
deriving DecidableEq

namespace Collection

def find? (members : List Member) (m : Member) : Option Nat :=
  members.findIdx? fun other => other.core == m.core && other.set.same m.set

/-- The number of a set among the members, which it joins if it is new. -/
def locate (members : List Member) (set : ItemSet) : Nat × List Member :=
  let m := Member.of set
  match find? members m with
  | some k => (k, members)
  | none => (members.length, members ++ [m])

def follow (a : Analysis) (set : ItemSet) (found : List Member × SymbolMap Nat) (s : SymbolId) :
    List Member × SymbolMap Nat :=
  let (k, members) := locate found.1 (set.goto a s)
  (members, found.2.insert s k)

def explore (c : Collection) (a : Analysis) (set : ItemSet) : Collection :=
  let (members, shifts) := (set.shiftSymbols a).toList.foldl (follow a set) (c.members, {})
  ⟨members, c.shifts ++ [shifts]⟩

/-- Explores the sets that are left, at most `fuel` of them. -/
def exploreAll (a : Analysis) : Nat → Collection → Collection
  | 0, c => c
  | fuel + 1, c =>
    match c.members[c.shifts.length]? with
    | none => c
    | some m => exploreAll a fuel (c.explore a m.set)

def seed (a : Analysis) : ItemSet := (ItemSet.ofList [⟨0, 0, .single .finish⟩]).close a

def places (a : Analysis) : Nat :=
  a.rules.foldr (fun rule total => rule.rhs.length + 1 + total) 0

/-- There are no more sets than choices, at each place, of a follow set or of no item. -/
def bound (a : Analysis) : Nat := Nat.pow 2 ((maxSymbols + 1) * places a)

def of (a : Analysis) : Collection := exploreAll a (bound a) ⟨[.of (seed a)], []⟩

end Collection

end CanonicalLR

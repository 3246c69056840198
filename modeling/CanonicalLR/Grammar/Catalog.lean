import CanonicalLR.Grammar.Collection

/-! Item sets beside a register of their cores. A set is looked for only among the sets that stand
under its core, and a new one is entered there. -/

namespace CanonicalLR

/-- The sets in the order in which they were found, and under each core the numbers of the sets that
have it. -/
structure Catalog where
  sets : List ItemSet := []
  register : List (List (Nat × Nat) × List Nat) := []

namespace Catalog

def enter (core : List (Nat × Nat)) (k : Nat) :
    List (List (Nat × Nat) × List Nat) → List (List (Nat × Nat) × List Nat)
  | [] => [(core, [k])]
  | (other, numbers) :: rest =>
    if other = core then (other, numbers ++ [k]) :: rest
    else (other, numbers) :: enter core k rest

def numbers (c : Catalog) (core : List (Nat × Nat)) : List Nat := (c.register.lookup core).getD []

def add (c : Catalog) (set : ItemSet) : Catalog :=
  ⟨c.sets ++ [set], enter set.core c.sets.length c.register⟩

/-- The first number under the core of a set that is the number of the same set. -/
def find? (c : Catalog) (set : ItemSet) : Option Nat :=
  (c.numbers set.core).find? fun k => c.sets[k]?.any (·.same set)

/-- The number of a set in the catalog, which it joins if it is new. -/
def locate (c : Catalog) (set : ItemSet) : Nat × Catalog :=
  match c.find? set with
  | some k => (k, c)
  | none => (c.sets.length, c.add set)

def start (a : Analysis) : Catalog := add {} (Collection.seed a)

end Catalog

end CanonicalLR

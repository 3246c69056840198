import CanonicalLR.Item.Basic

/-! Sets of items. A set holds at most one item for a rule and a place of the dot; adding another
one joins their follow sets. The items stay in the order in which they were added. -/

namespace CanonicalLR

structure ItemSet where
  items : List Item := []
deriving DecidableEq, Inhabited

namespace ItemSet

/-- Adds an item to a list, into the item with the same rule and dot if there is one. -/
def addTo (item : Item) : List Item → List Item
  | [] => [item]
  | it :: rest =>
    if it.rule = item.rule ∧ it.dot = item.dot then
      { it with follow := it.follow.merge item.follow } :: rest
    else it :: addTo item rest

def add (set : ItemSet) (item : Item) : ItemSet := ⟨addTo item set.items⟩

def addGrows (set : ItemSet) (item : Item) : Bool := set.add item != set

def addAll (set : ItemSet) (items : List Item) : ItemSet := items.foldl add set

def ofList (items : List Item) : ItemSet := addAll {} items

def closeAt (a : Analysis) (set : ItemSet) (place : Nat) : ItemSet :=
  match set.items[place]? with
  | none => set
  | some it => set.addAll (it.closure a)

/-- One walk over the items, those added on the way included. A walk adds at most one item for
each rule. -/
def closePass (a : Analysis) (set : ItemSet) : ItemSet :=
  (List.range (set.items.length + a.rules.length)).foldl (closeAt a) set

/-- Every walk but the last adds an item or a member of a follow set. -/
def closeRounds (a : Analysis) (set : ItemSet) : Nat :=
  (maxSymbols + 1) * (set.items.length + a.rules.length) + 1

def close (set : ItemSet) (a : Analysis) : ItemSet :=
  saturate (closePass a) (set.closeRounds a) set

def shiftSymbols (set : ItemSet) (a : Analysis) : SymbolSet :=
  .ofList (set.items.filterMap (·.next? a))

def shiftOver (set : ItemSet) (a : Analysis) (s : SymbolId) : ItemSet :=
  .ofList ((set.items.filter fun it => it.next? a == some s).map
    fun it => { it with dot := it.dot + 1 })

def goto (set : ItemSet) (a : Analysis) (s : SymbolId) : ItemSet := (set.shiftOver a s).close a

def reduceSymbols (set : ItemSet) (a : Analysis) : SymbolSet :=
  (set.items.filter (·.canReduce a)).foldl (fun found it => found.merge it.follow) {}

def reduceRules (set : ItemSet) (a : Analysis) (s : SymbolId) : List Nat :=
  (set.items.filter fun it => it.canReduce a && it.follow.contains s).map (·.rule)

def position (it : Item) : Nat × Nat := (it.rule, it.dot)

def positionLe (x y : Nat × Nat) : Bool := x.1 < y.1 || (x.1 == y.1 && x.2 ≤ y.2)

def insertPosition (x : Nat × Nat) : List (Nat × Nat) → List (Nat × Nat)
  | [] => [x]
  | y :: rest => if positionLe x y then x :: y :: rest else y :: insertPosition x rest

def core (set : ItemSet) : List (Nat × Nat) := (set.items.map position).foldr insertPosition []

/-- As many items, and every item of the first is one of the second. -/
def same (a b : ItemSet) : Bool :=
  a.items.length == b.items.length && a.items.all b.items.contains

end ItemSet

end CanonicalLR

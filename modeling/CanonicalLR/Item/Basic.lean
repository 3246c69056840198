import CanonicalLR.Analysis

/-! Items: a rule, a place in its right-hand side, and the terminals that may follow the rule. -/

namespace CanonicalLR

structure Item where
  rule : Nat
  dot : Nat
  follow : SymbolSet
deriving DecidableEq

namespace Item

def ahead (it : Item) (a : Analysis) : List SymbolId := (a.rhs it.rule).drop it.dot

def canReduce (it : Item) (a : Analysis) : Bool := (a.rhs it.rule).length ≤ it.dot

def next? (it : Item) (a : Analysis) : Option SymbolId := (a.rhs it.rule)[it.dot]?

/-- What may follow the symbol after the dot, if `rest` stands behind that symbol. -/
def followAfter (it : Item) (a : Analysis) (rest : List SymbolId) : SymbolSet :=
  if a.allNullable rest then (a.firstOfAll rest).merge it.follow else a.firstOfAll rest

def closure (it : Item) (a : Analysis) : List Item :=
  match it.ahead a with
  | [] => []
  | s :: rest =>
    if a.symbols.isTerminal s then []
    else
      let follow := it.followAfter a rest
      (a.rulesFor s).map fun rule => ⟨rule.index, 0, follow⟩

def dotted (r : Registry) : Nat → List SymbolId → String
  | _, [] => " ."
  | 0, ids => " ." ++ String.join (ids.map fun s => " " ++ r.name s)
  | dot + 1, s :: rest => " " ++ r.name s ++ dotted r dot rest

def text (it : Item) (a : Analysis) : String :=
  let follow := a.symbols.namesText ", " it.follow.toList
  a.lhsName it.rule ++ " ->" ++ dotted a.symbols it.dot (a.rhs it.rule)
    ++ ", \x7b" ++ follow ++ "\x7d"

end Item

end CanonicalLR

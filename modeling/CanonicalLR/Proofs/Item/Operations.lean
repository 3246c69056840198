import CanonicalLR.Proofs.Item.Closure

/-! The operations on an item set, one after the other. Whatever they are, the set holds each rule and
dot once, and so the test whether two sets are the same does not depend on which of them comes
first. -/

namespace CanonicalLR.ItemSet

inductive Operation where
  | add (item : Item)
  | close (a : Analysis)
  | shift (a : Analysis) (s : SymbolId)

namespace Operation

def perform (set : ItemSet) : Operation → ItemSet
  | add item => set.add item
  | close a => set.close a
  | shift a s => set.shiftOver a s

/-- What a row of operations makes of the empty set. -/
def run (ops : List Operation) : ItemSet := ops.foldl perform {}

theorem tidy_perform {set : ItemSet} (h : set.Tidy) (op : Operation) : (op.perform set).Tidy := by
  cases op with
  | add item => exact h.add item
  | close a => exact h.close a
  | shift a s => exact tidy_ofList _

theorem tidy_run (ops : List Operation) : (run ops).Tidy :=
  List.foldlRecOn _ _ (show Tidy {} from List.nodup_nil) fun _ h op _ => tidy_perform h op

theorem equivalence_same :
    Equivalence fun ops ops' : List Operation => (run ops).same (run ops') = true where
  refl ops := ((tidy_run ops).same_iff_perm _).mpr (.refl _)
  symm h := (tidy_run _).same_symm (tidy_run _) h
  trans h h' := (tidy_run _).same_trans (tidy_run _) h h'

end Operation

end CanonicalLR.ItemSet

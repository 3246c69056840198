import CanonicalLR.Symbol.Set
import Mathlib.Data.Finset.Card
import Mathlib.Data.Fintype.Card
import Mathlib.Data.List.FinRange

/-! Sets of symbols as finite sets: what lists make of them, how large they are, and the order in
which they are listed. -/

namespace CanonicalLR.SymbolSet

@[simp] theorem contains_default (s : SymbolId) : ({} : SymbolSet).contains s = false :=
  contains_empty s

@[simp] theorem contains_single (s t : SymbolId) : (single s).contains t = decide (t = s) := by
  simp [single]

theorem contains_foldl_insert (ids : List SymbolId) (set : SymbolSet) (s : SymbolId) :
    (ids.foldl insert set).contains s = (set.contains s || decide (s ∈ ids)) := by
  induction ids generalizing set with
  | nil => simp
  | cons t ids ih => simp [ih, Bool.or_assoc]

@[simp] theorem contains_ofList (ids : List SymbolId) (s : SymbolId) :
    (ofList ids).contains s = decide (s ∈ ids) := by
  simp [ofList, contains_foldl_insert]

theorem toList_pairwise (set : SymbolSet) : set.toList.Pairwise (· < ·) :=
  List.Pairwise.filter _ (List.pairwise_lt_finRange maxSymbols)

theorem toList_nodup (set : SymbolSet) : set.toList.Nodup :=
  (List.nodup_finRange maxSymbols).filter _

theorem cpopNatRec_eq_countP {w : Nat} (x : BitVec w) (n : Nat) :
    x.cpopNatRec n 0 = (List.range n).countP (x.getLsbD ·) := by
  induction n with
  | zero => rfl
  | succ n ih =>
    rw [BitVec.cpopNatRec_succ, BitVec.cpopNatRec_add, ih, List.range_succ, List.countP_append,
      List.countP_singleton]
    cases x.getLsbD n <;> rfl

/-- The bits of the word are counted, and each of them is a member. -/
theorem size_eq_length (set : SymbolSet) : set.size = set.toList.length := by
  rw [size, BitVec.toNat_cpop, cpopNatRec_eq_countP, ← List.map_coe_finRange_eq_range,
    List.countP_map, toList, SymbolId.all, List.countP_eq_length_filter]
  congr 2
  exact funext fun s => (contains_eq_getLsbD set s).symm

theorem size_eq_card (set : SymbolSet) :
    set.size = (Finset.univ.filter fun s => set.contains s = true).card := by
  rw [size_eq_length, ← List.toFinset_card_of_nodup set.toList_nodup]
  congr 1
  ext s
  simp

theorem size_le (set : SymbolSet) : set.size ≤ maxSymbols := by
  rw [size_eq_card]
  exact (Finset.card_le_univ _).trans (Fintype.card_fin maxSymbols).le

theorem size_lt {a b : SymbolSet} (h : ∀ s, a.contains s = true → b.contains s = true)
    (hne : a ≠ b) : a.size < b.size := by
  rw [size_eq_card, size_eq_card]
  apply Finset.card_lt_card
  refine ⟨fun s hs => by simpa using h s (by simpa using hs), fun hba => hne ?_⟩
  apply ext_contains
  intro s
  rw [Bool.eq_iff_iff]
  exact ⟨h s, fun hs => by simpa using hba (show s ∈ _ by simpa using hs)⟩

theorem merge_eq_or_size_lt (a b : SymbolSet) : a.merge b = a ∨ a.size < (a.merge b).size := by
  by_cases h : a.merge b = a
  · exact Or.inl h
  · exact Or.inr (size_lt (fun s hs => by simp [hs]) (Ne.symm h))

theorem insert_eq_or_size_lt (a : SymbolSet) (s : SymbolId) :
    a.insert s = a ∨ a.size < (a.insert s).size := by
  by_cases h : a.insert s = a
  · exact Or.inl h
  · exact Or.inr (size_lt (fun t ht => by simp [ht]) (Ne.symm h))

end CanonicalLR.SymbolSet

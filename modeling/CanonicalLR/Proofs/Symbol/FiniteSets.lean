import CanonicalLR.Proofs.Symbol.Set
import Mathlib.Data.Finset.Card
import Mathlib.Data.List.Sort
import Mathlib.Logic.Function.Basic

/-! Words of bits against finite sets. A walk takes one bit after the other off a word, from the
lowest on, and comes to every member once. Whatever is done to sets of symbols is done alike to
finite sets, and in the end the words are the words of those sets. -/

namespace CanonicalLR.SymbolSet

/-! The walk. -/

theorem ctz_le_of_getLsbD {w : Nat} {x : BitVec w} {i : Nat} (h : x.getLsbD i = true) :
    x.ctz.toNat ≤ i := by
  refine Nat.not_lt.mp fun hlt => ?_
  rw [BitVec.getLsbD_false_of_lt_ctz hlt] at h
  cases h

theorem getLsbD_clear_lowest {w : Nat} {x : BitVec w} (hx : x ≠ 0#w) (i : Nat) :
    (x &&& (x - 1#w)).getLsbD i = true ↔ x.getLsbD i = true ∧ x.ctz.toNat < i := by
  have hlow := BitVec.getLsbD_true_ctz_of_ne_zero hx
  rw [← BitVec.not_neg, BitVec.getLsbD_and, Bool.and_eq_true]
  refine and_congr_right fun hi => ?_
  -- Taking the negative turns over the bits above the lowest and no others.
  rw [BitVec.getLsbD_not, BitVec.getLsbD_neg, hi]
  simp only [BitVec.lt_of_getLsbD hi, decide_true, Bool.true_and, Bool.true_xor, Bool.not_not,
    decide_eq_true_eq]
  exact ⟨fun ⟨j, hj, hbit⟩ => (ctz_le_of_getLsbD hbit).trans_lt hj, fun hlt => ⟨_, hlt, hlow⟩⟩

namespace Walk

theorem next?_eq_none {w : Walk} : w.next? = none ↔ w.bits = 0 := by
  unfold next?
  split <;> simp_all

/-- A step comes to the lowest bit and leaves the others. -/
theorem next?_eq_some {w rest : Walk} {i : Nat} (h : w.next? = some (i, rest)) :
    (∀ j, w.bits.toBitVec.getLsbD j = true ↔ j = i ∨ rest.bits.toBitVec.getLsbD j = true) ∧
      ∀ j, rest.bits.toBitVec.getLsbD j = true → i < j := by
  unfold next? at h
  split at h
  · cases h
  · rename_i hne
    obtain ⟨rfl, rfl⟩ := Prod.mk.inj (Option.some.inj h)
    have hbits : w.bits.toBitVec ≠ 0#64 := fun h0 => hne (UInt64.toBitVec_inj.mp h0)
    have hrest := getLsbD_clear_lowest hbits
    refine ⟨fun j => ?_, fun j hj => ((hrest j).mp hj).2⟩
    constructor
    · intro hj
      exact (ctz_le_of_getLsbD hj).eq_or_lt.imp Eq.symm fun hlt => (hrest j).mpr ⟨hj, hlt⟩
    · rintro (rfl | hj)
      · exact BitVec.getLsbD_true_ctz_of_ne_zero hbits
      · exact ((hrest j).mp hj).1

theorem numbers_of_none {w : Walk} (h : w.next? = none) : w.numbers = [] := by
  rw [numbers]
  split <;> simp_all

theorem numbers_of_some {w rest : Walk} {i : Nat} (h : w.next? = some (i, rest)) :
    w.numbers = i :: rest.numbers := by
  rw [numbers]
  split <;> simp_all

theorem mem_numbers (w : Walk) (i : Nat) :
    i ∈ w.numbers ↔ w.bits.toBitVec.getLsbD i = true := by
  induction w using numbers.induct with
  | case1 w hnone => simp [numbers_of_none hnone, next?_eq_none.mp hnone]
  | case2 w k rest hsome ih =>
    rw [numbers_of_some hsome, List.mem_cons, ih, (next?_eq_some hsome).1]

theorem pairwise_numbers (w : Walk) : w.numbers.Pairwise (· < ·) := by
  induction w using numbers.induct with
  | case1 w hnone =>
    rw [numbers_of_none hnone]
    exact .nil
  | case2 w k rest hsome ih =>
    rw [numbers_of_some hsome]
    refine .cons (fun i hi => ?_) ih
    exact (next?_eq_some hsome).2 i ((mem_numbers rest i).mp hi)

end Walk

theorem numbers_walk (set : SymbolSet) : set.walk.numbers = set.toList.map (·.val) := by
  refine (Walk.pairwise_numbers set.walk).eq_of_mem_iff
    (List.pairwise_map.mpr set.toList_pairwise) fun i => ?_
  rw [Walk.mem_numbers, List.mem_map]
  constructor
  · intro hi
    refine ⟨⟨i, BitVec.lt_of_getLsbD hi⟩, ?_, rfl⟩
    rw [mem_toList, contains_eq_getLsbD]
    exact hi
  · rintro ⟨s, hs, rfl⟩
    rwa [mem_toList, contains_eq_getLsbD] at hs

example : (ofList [63, 3, 7]).walk.numbers = [3, 7, 63] := by cbv

theorem mapM_numbers_walk (set : SymbolSet) :
    set.walk.numbers.mapM SymbolId.ofNat? = some set.toList := by
  rw [numbers_walk]
  induction set.toList with
  | nil => rfl
  | cons s ids ih => simp [SymbolId.ofNat?, ih]

/-! Operations on sets. -/

/-- What sets of symbols can be made of. -/
structure Interpretation (α : Type) where
  empty : α
  insert : α → SymbolId → α
  insertGrows : α → SymbolId → Bool
  erase : α → SymbolId → α
  merge : α → α → α
  mergeGrows : α → α → Bool
  inter : α → α → α
  single : SymbolId → α
  ofList : List SymbolId → α

def words : Interpretation SymbolSet where
  empty := empty
  insert := insert
  insertGrows := insertGrows
  erase := erase
  merge := merge
  mergeGrows := mergeGrows
  inter := inter
  single := single
  ofList := ofList

/-- Finite sets; they grow if they become part of a larger one. -/
def finsets : Interpretation (Finset SymbolId) where
  empty := ∅
  insert m s := Insert.insert s m
  insertGrows m s := decide (m ⊂ Insert.insert s m)
  erase := Finset.erase
  merge m n := m ∪ n
  mergeGrows m n := decide (m ⊂ m ∪ n)
  inter m n := m ∩ n
  single s := {s}
  ofList := List.toFinset

/-- An operation on sets that stand at numbered places. -/
inductive Operation where
  | insert (k : Nat) (s : SymbolId)
  | erase (k : Nat) (s : SymbolId)
  | merge (k other : Nat)
  | inter (k left right : Nat)
  | single (k : Nat) (s : SymbolId)
  | collect (k : Nat) (ids : List SymbolId)

namespace Operation

variable {α : Type}

/-- The sets behind an operation, and its answer if it gives one. -/
def perform (i : Interpretation α) (sets : Nat → α) : Operation → (Nat → α) × Option Bool
  | insert k s => (Function.update sets k (i.insert (sets k) s), some (i.insertGrows (sets k) s))
  | erase k s => (Function.update sets k (i.erase (sets k) s), none)
  | merge k other => (Function.update sets k (i.merge (sets k) (sets other)),
      some (i.mergeGrows (sets k) (sets other)))
  | inter k left right => (Function.update sets k (i.inter (sets left) (sets right)), none)
  | single k s => (Function.update sets k (i.single s), none)
  | collect k ids => (Function.update sets k (i.ofList ids), none)

/-- The sets behind a row of operations, and all answers in their order. -/
def run (i : Interpretation α) : List Operation → (Nat → α) → (Nat → α) × List (Option Bool)
  | [], sets => (sets, [])
  | op :: ops, sets =>
    let (sets, answer) := op.perform i sets
    let (sets, answers) := run i ops sets
    (sets, answer :: answers)

/-- The sets behind a row of operations that starts with empty sets, and all answers. -/
def outcome (i : Interpretation α) (ops : List Operation) : (Nat → α) × List (Option Bool) :=
  run i ops fun _ => i.empty

end Operation

/-! What a word says of a finite set. -/

def Alike (set : SymbolSet) (m : Finset SymbolId) : Prop :=
  ∀ s, set.contains s = true ↔ s ∈ m

section Alike

variable {a b : SymbolSet} {m n : Finset SymbolId}

theorem alike_empty : Alike empty ∅ := by simp [Alike]

theorem Alike.insert (h : Alike a m) (s : SymbolId) : Alike (a.insert s) (Insert.insert s m) := by
  intro t
  rw [contains_insert, Bool.or_eq_true, decide_eq_true_eq, h t, Finset.mem_insert, or_comm]

theorem Alike.erase (h : Alike a m) (s : SymbolId) : Alike (a.erase s) (m.erase s) := by
  intro t
  rw [contains_erase, Bool.and_eq_true, Bool.not_eq_true', decide_eq_false_iff_not, h t,
    Finset.mem_erase, and_comm]

theorem Alike.merge (h : Alike a m) (h' : Alike b n) : Alike (a.merge b) (m ∪ n) := by
  intro t
  rw [contains_merge, Bool.or_eq_true, h t, h' t, Finset.mem_union]

theorem Alike.inter (h : Alike a m) (h' : Alike b n) : Alike (a.inter b) (m ∩ n) := by
  intro t
  rw [contains_inter, Bool.and_eq_true, h t, h' t, Finset.mem_inter]

theorem alike_ofList (ids : List SymbolId) : Alike (ofList ids) ids.toFinset := by
  intro t
  rw [contains_ofList, decide_eq_true_eq, List.mem_toFinset]

theorem alike_single (s : SymbolId) : Alike (single s) {s} := alike_ofList [s]

theorem Alike.eq_iff (h : Alike a m) (h' : Alike b n) : a = b ↔ m = n := by
  constructor
  · rintro rfl
    exact Finset.ext fun s => (h s).symm.trans (h' s)
  · rintro rfl
    exact ext_contains fun s => Bool.eq_iff_iff.mpr ((h s).trans (h' s).symm)

/-- A word that stands for more than before is another one just when the set has grown. -/
theorem Alike.grows (h : Alike a m) (h' : Alike b n) (hsub : m ⊆ n) :
    (b != a) = decide (m ⊂ n) := by
  rw [Bool.eq_iff_iff, bne_iff_ne, decide_eq_true_eq, ne_eq, h'.eq_iff h, ssubset_iff_subset_ne]
  exact ⟨fun hne => ⟨hsub, Ne.symm hne⟩, fun hne => Ne.symm hne.2⟩

end Alike

/-- The word has the bits of the finite set, and whatever is asked of it has that set's answer. -/
structure Represents (set : SymbolSet) (m : Finset SymbolId) : Prop where
  bits : ∀ i, set.bits.toNat.testBit i = true ↔ ∃ s ∈ m, s.val = i
  contains : ∀ s, set.contains s = true ↔ s ∈ m
  size : set.size = m.card
  isEmpty : set.isEmpty = true ↔ m = ∅
  visits : set.walk.numbers.mapM SymbolId.ofNat? = some set.toList
  ascending : set.toList.Pairwise (· < ·)
  members : ∀ s, s ∈ set.toList ↔ s ∈ m

theorem Alike.represents {set : SymbolSet} {m : Finset SymbolId} (h : Alike set m) :
    Represents set m where
  bits := by
    intro i
    constructor
    · intro hi
      have hlt : i < maxSymbols := BitVec.lt_of_getLsbD (x := set.bits.toBitVec) hi
      exact ⟨⟨i, hlt⟩, (h _).mp ((contains_eq_getLsbD set _).trans hi), rfl⟩
    · rintro ⟨s, hs, rfl⟩
      exact (contains_eq_getLsbD set s).symm.trans ((h s).mpr hs)
  contains := h
  size := by
    rw [size_eq_card]
    exact congrArg Finset.card (Finset.ext fun s => by simp [h s])
  isEmpty := by
    rw [← h.eq_iff alike_empty, SymbolSet.isEmpty, beq_iff_eq]
    cases set
    simp [empty]
  visits := mapM_numbers_walk set
  ascending := set.toList_pairwise
  members := fun s => mem_toList.trans (h s)

namespace Operation

variable {sets : Nat → SymbolSet} {finite : Nat → Finset SymbolId}

theorem alike_update (h : ∀ k, Alike (sets k) (finite k)) {set : SymbolSet} {m : Finset SymbolId}
    (hset : Alike set m) (k : Nat) :
    ∀ l, Alike (Function.update sets k set l) (Function.update finite k m l) := by
  intro l
  by_cases hl : l = k
  · subst hl
    rwa [Function.update_self, Function.update_self]
  · rw [Function.update_of_ne hl, Function.update_of_ne hl]
    exact h l

/-- An operation gives the same answer on both sides and leaves both alike. -/
theorem perform_alike (h : ∀ k, Alike (sets k) (finite k)) (op : Operation) :
    (∀ k, Alike ((op.perform words sets).1 k) ((op.perform finsets finite).1 k)) ∧
      (op.perform words sets).2 = (op.perform finsets finite).2 := by
  cases op with
  | insert k s =>
    have hset := (h k).insert s
    exact ⟨alike_update h hset k, congrArg some ((h k).grows hset (Finset.subset_insert s _))⟩
  | erase k s => exact ⟨alike_update h ((h k).erase s) k, rfl⟩
  | merge k other =>
    have hset := (h k).merge (h other)
    exact ⟨alike_update h hset k, congrArg some ((h k).grows hset Finset.subset_union_left)⟩
  | inter k left right => exact ⟨alike_update h ((h left).inter (h right)) k, rfl⟩
  | single k s => exact ⟨alike_update h (alike_single s) k, rfl⟩
  | collect k ids => exact ⟨alike_update h (alike_ofList ids) k, rfl⟩

theorem run_alike (ops : List Operation) (h : ∀ k, Alike (sets k) (finite k)) :
    (∀ k, Alike ((run words ops sets).1 k) ((run finsets ops finite).1 k)) ∧
      (run words ops sets).2 = (run finsets ops finite).2 := by
  induction ops generalizing sets finite with
  | nil => exact ⟨h, rfl⟩
  | cons op ops ih =>
    obtain ⟨hsets, hanswer⟩ := perform_alike h op
    obtain ⟨hrun, hanswers⟩ := ih hsets
    exact ⟨hrun, congrArg₂ List.cons hanswer hanswers⟩

/-- Whatever operations are made, the words represent the finite sets that the same operations
make, are equal just when those are, and reported to grow just when those did. -/
theorem outcome_represents (ops : List Operation) :
    (∀ k, Represents ((outcome words ops).1 k) ((outcome finsets ops).1 k)) ∧
    (∀ k l, ((outcome words ops).1 k == (outcome words ops).1 l) = true ↔
      (outcome finsets ops).1 k = (outcome finsets ops).1 l) ∧
    (outcome words ops).2 = (outcome finsets ops).2 := by
  obtain ⟨hsets, hanswers⟩ := run_alike ops fun _ => alike_empty
  refine ⟨fun k => (hsets k).represents, fun k l => ?_, hanswers⟩
  rw [beq_iff_eq]
  exact (hsets k).eq_iff (hsets l)

end Operation

end CanonicalLR.SymbolSet

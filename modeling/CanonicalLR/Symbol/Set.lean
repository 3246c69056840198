import CanonicalLR.Symbol.Basic

/-! Sets of symbols, one bit of a word for each symbol. Every operation is described by the members
it leaves, and two sets with the same members are equal. -/

namespace CanonicalLR

structure SymbolSet where
  bits : UInt64 := 0
deriving DecidableEq, Inhabited

namespace SymbolSet

def bit (s : SymbolId) : UInt64 := 1 <<< UInt64.ofNat s.val

def empty : SymbolSet := {}

def contains (set : SymbolSet) (s : SymbolId) : Bool := set.bits &&& bit s != 0

def insert (set : SymbolSet) (s : SymbolId) : SymbolSet := ⟨set.bits ||| bit s⟩

def erase (set : SymbolSet) (s : SymbolId) : SymbolSet := ⟨set.bits &&& ~~~bit s⟩

def single (s : SymbolId) : SymbolSet := empty.insert s

def ofList (ids : List SymbolId) : SymbolSet := ids.foldl insert empty

def merge (a b : SymbolSet) : SymbolSet := ⟨a.bits ||| b.bits⟩

def inter (a b : SymbolSet) : SymbolSet := ⟨a.bits &&& b.bits⟩

def insertGrows (set : SymbolSet) (s : SymbolId) : Bool := set.insert s != set

def mergeGrows (a b : SymbolSet) : Bool := a.merge b != a

def isEmpty (set : SymbolSet) : Bool := set.bits == 0

def toList (set : SymbolSet) : List SymbolId := SymbolId.all.filter set.contains

def size (set : SymbolSet) : Nat := set.bits.toBitVec.cpop.toNat

/-- A walk over the members of a set: the bits of those that are left. -/
structure Walk where
  bits : UInt64

def walk (set : SymbolSet) : Walk := ⟨set.bits⟩

namespace Walk

/-- The number of the lowest bit, and the walk without that bit. -/
def next? (w : Walk) : Option (Nat × Walk) :=
  if w.bits = 0 then none
  else some (w.bits.toBitVec.ctz.toNat, ⟨w.bits &&& (w.bits - 1)⟩)

theorem lt_of_next? {w rest : Walk} {i : Nat} (h : w.next? = some (i, rest)) :
    rest.bits.toNat < w.bits.toNat := by
  unfold next? at h
  split at h
  · cases h
  · rename_i hne
    obtain ⟨-, rfl⟩ := Prod.mk.inj (Option.some.inj h)
    have hpos : w.bits.toNat ≠ 0 := fun h0 => hne (UInt64.toNat_inj.mp h0)
    have hle : (1 : UInt64) ≤ w.bits := UInt64.le_iff_toNat_le.mpr (Nat.pos_of_ne_zero hpos)
    have hand := Nat.and_le_right (n := w.bits.toNat) (m := (w.bits - 1).toNat)
    rw [UInt64.toNat_sub_of_le _ _ hle] at hand
    rw [UInt64.toNat_and, UInt64.toNat_sub_of_le _ _ hle]
    have hone : (1 : UInt64).toNat = 1 := rfl
    omega

/-- The numbers that are left. There is an end to them, since every step makes the word smaller. -/
def numbers (w : Walk) : List Nat :=
  match _h : w.next? with
  | none => []
  | some (i, rest) => i :: rest.numbers
termination_by w.bits.toNat
decreasing_by exact lt_of_next? _h

end Walk

def text (set : SymbolSet) : String :=
  "\x7b" ++ String.intercalate ", " (set.walk.numbers.map toString) ++ "\x7d"

theorem toBitVec_bit (s : SymbolId) : (bit s).toBitVec = BitVec.twoPow 64 s.val := by
  revert s; decide +kernel

theorem contains_eq_getLsbD (set : SymbolSet) (s : SymbolId) :
    set.contains s = set.bits.toBitVec.getLsbD s.val := by
  rw [contains, Bool.eq_iff_iff, bne_iff_ne, ne_eq, ← UInt64.toBitVec_inj, UInt64.toBitVec_and,
    toBitVec_bit, BitVec.and_twoPow]
  have hz : BitVec.twoPow 64 s.val ≠ 0#64 := by
    revert s; decide +kernel
  cases set.bits.toBitVec.getLsbD s.val <;> simp [hz]

theorem ext_contains {a b : SymbolSet} (h : ∀ s, a.contains s = b.contains s) : a = b := by
  cases a with | mk x => cases b with | mk y =>
  congr 1
  apply UInt64.toBitVec_inj.mp
  apply BitVec.eq_of_getLsbD_eq
  intro i hi
  simpa only [contains_eq_getLsbD] using h ⟨i, hi⟩

@[simp] theorem contains_empty (s : SymbolId) : empty.contains s = false := by
  simp [contains_eq_getLsbD, empty]

@[simp] theorem contains_insert (set : SymbolSet) (s t : SymbolId) :
    (set.insert s).contains t = (set.contains t || decide (t = s)) := by
  simp [contains_eq_getLsbD, insert, toBitVec_bit, Fin.ext_iff]

@[simp] theorem contains_erase (set : SymbolSet) (s t : SymbolId) :
    (set.erase s).contains t = (set.contains t && !decide (t = s)) := by
  simp [contains_eq_getLsbD, erase, toBitVec_bit, Fin.ext_iff]

@[simp] theorem contains_merge (a b : SymbolSet) (s : SymbolId) :
    (a.merge b).contains s = (a.contains s || b.contains s) := by
  simp [contains_eq_getLsbD, merge]

@[simp] theorem contains_inter (a b : SymbolSet) (s : SymbolId) :
    (a.inter b).contains s = (a.contains s && b.contains s) := by
  simp [contains_eq_getLsbD, inter]

@[simp] theorem mem_toList {set : SymbolSet} {s : SymbolId} :
    s ∈ set.toList ↔ set.contains s = true := by
  simp [toList, SymbolId.all]

end SymbolSet

end CanonicalLR

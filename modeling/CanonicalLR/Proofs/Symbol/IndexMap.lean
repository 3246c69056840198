import CanonicalLR.Symbol.IndexMap
import Mathlib.Tactic.Common

/-! What a map finds. The entries decide it, since no key is there twice. -/

namespace CanonicalLR.IndexMap

variable {κ α : Type} [DecidableEq κ] {m : IndexMap κ α} {key k : κ} {value v : α} {i : Nat}

theorem indexOf?_eq_some : m.indexOf? key = some i ↔ ∃ v, m.entries[i]? = some (key, v) := by
  rw [indexOf?, List.findIdx?_eq_some_iff_getElem]
  constructor
  · rintro ⟨hi, hkey, -⟩
    refine ⟨m.entries[i].2, ?_⟩
    rw [List.getElem?_eq_getElem hi, ← of_decide_eq_true hkey]
  · rintro ⟨v, hv⟩
    obtain ⟨hi, he⟩ := List.getElem?_eq_some_iff.mp hv
    refine ⟨hi, by simp [he], fun j hj => ?_⟩
    have hne := List.pairwise_iff_getElem.mp m.nodup j i (by simp; omega) (by simpa) hj
    simpa [he] using hne

theorem full?_eq_some : m.full? key = some (i, v) ↔ m.entries[i]? = some (key, v) := by
  simp only [full?, valueAt?, Option.bind_eq_some_iff, indexOf?_eq_some, Option.map_eq_some_iff]
  constructor
  · rintro ⟨j, ⟨_, hj⟩, _, ⟨_, hj', rfl⟩, he⟩
    cases he
    cases hj.symm.trans hj'
    exact hj
  · intro h
    exact ⟨i, ⟨v, h⟩, v, ⟨_, h, rfl⟩, rfl⟩

theorem get?_eq_some : m.get? key = some v ↔ (key, v) ∈ m.entries := by
  rw [List.mem_iff_getElem?]
  simp only [get?, valueAt?, Option.bind_eq_some_iff, indexOf?_eq_some, Option.map_eq_some_iff]
  constructor
  · rintro ⟨i, ⟨_, hi⟩, _, hi', rfl⟩
    cases hi.symm.trans hi'
    exact ⟨i, hi⟩
  · rintro ⟨i, hi⟩
    exact ⟨i, ⟨v, hi⟩, _, hi, rfl⟩

theorem insertEntry_of_notMem (value : α) {entries : List (κ × α)} (h : key ∉ entries.map (·.1)) :
    insertEntry key value entries = entries ++ [(key, value)] := by
  induction entries with
  | nil => rfl
  | cons entry rest ih =>
    rw [List.map_cons, List.mem_cons, not_or] at h
    rw [insertEntry, if_neg (Ne.symm h.1), ih h.2, List.cons_append]

theorem mem_insertEntry {entries : List (κ × α)} (h : (entries.map (·.1)).Nodup) :
    (k, v) ∈ insertEntry key value entries ↔
      (k = key ∧ v = value) ∨ (k ≠ key ∧ (k, v) ∈ entries) := by
  induction entries with
  | nil => simp [insertEntry]
  | cons entry rest ih =>
    obtain ⟨k', v'⟩ := entry
    rw [List.map_cons, List.nodup_cons] at h
    by_cases hk : k' = key
    · subst hk
      -- the key is here, so it is not further back
      have hback : (k, v) ∈ rest → k ≠ k' := fun hmem he =>
        h.1 (List.mem_map.mpr ⟨(k, v), hmem, he⟩)
      rw [insertEntry, if_pos rfl, List.mem_cons, List.mem_cons, Prod.mk.injEq, Prod.mk.injEq]
      tauto
    · have hne : k = k' → k ≠ key := fun he => he ▸ hk
      rw [insertEntry, if_neg hk, List.mem_cons, List.mem_cons, ih h.2, Prod.mk.injEq]
      tauto

theorem get?_insert : (m.insert key value).get? k = if k = key then some value else m.get? k := by
  ext v
  rw [get?_eq_some, insert, mem_insertEntry m.nodup]
  by_cases hk : k = key
  · simp [hk, eq_comm]
  · simp [hk, get?_eq_some]

end CanonicalLR.IndexMap

import CanonicalLR.Symbol.Map
import Mathlib.Order.Fin.Basic

/-! Maps whose keys ascend. Every operation keeps them so, and such a map is made again by entering
what it holds from first to last. -/

namespace CanonicalLR.SymbolMap

variable {α : Type}

theorem mem_keys (m : SymbolMap α) (s : SymbolId) : s ∈ m.keys ↔ ∃ v, m.get? s = some v := by
  rw [← Option.isSome_iff_exists, get?, List.lookup_isSome_iff, keys, List.mem_map]
  simp only [beq_iff_eq]
  exact exists_congr fun entry => and_congr_right fun _ => eq_comm

def Ascends (entries : List (SymbolId × α)) : Prop :=
  entries.Pairwise fun e f => e.1 < f.1

def Ordered (m : SymbolMap α) : Prop := Ascends m.entries

theorem ordered_empty : Ordered ({} : SymbolMap α) := List.Pairwise.nil

theorem mem_insertEntry {s : SymbolId} {v : α} {entries : List (SymbolId × α)} {e : SymbolId × α}
    (h : e ∈ insertEntry s v entries) : e = (s, v) ∨ e ∈ entries := by
  induction entries with
  | nil => exact Or.inl (List.mem_singleton.mp h)
  | cons f rest ih =>
    obtain ⟨t, w⟩ := f
    rw [insertEntry] at h
    split at h
    · exact List.mem_cons.mp h
    · split at h
      · exact (List.mem_cons.mp h).imp_right (List.mem_cons_of_mem _)
      · rcases List.mem_cons.mp h with rfl | h
        · exact Or.inr List.mem_cons_self
        · exact (ih h).imp_right (List.mem_cons_of_mem _)

theorem ascends_insertEntry {s : SymbolId} {v : α} {entries : List (SymbolId × α)}
    (h : Ascends entries) : Ascends (insertEntry s v entries) := by
  induction entries with
  | nil => exact List.pairwise_singleton _ _
  | cons f rest ih =>
    obtain ⟨t, w⟩ := f
    obtain ⟨hfirst, hrest⟩ := List.pairwise_cons.mp h
    rw [insertEntry]
    split
    · rename_i hlt
      refine List.pairwise_cons.mpr ⟨fun e he => ?_, h⟩
      rcases List.mem_cons.mp he with rfl | he
      · exact hlt
      · exact lt_trans hlt (hfirst e he)
    · split
      · rename_i he
        exact List.pairwise_cons.mpr ⟨he ▸ hfirst, hrest⟩
      · rename_i hnot hne
        refine List.pairwise_cons.mpr ⟨fun e he => ?_, ih hrest⟩
        rcases mem_insertEntry he with rfl | he
        · exact lt_of_le_of_ne (not_lt.mp hnot) (Ne.symm hne)
        · exact hfirst e he

theorem Ordered.insert {m : SymbolMap α} (h : m.Ordered) (s : SymbolId) (v : α) :
    (m.insert s v).Ordered :=
  ascends_insertEntry h

theorem Ordered.erase {m : SymbolMap α} (h : m.Ordered) (s : SymbolId) : (m.erase s).Ordered :=
  List.Pairwise.filter _ h

theorem Ordered.get?_eq_some {m : SymbolMap α} (h : m.Ordered) {s : SymbolId} {v : α} :
    m.get? s = some v ↔ (s, v) ∈ m.entries := by
  obtain ⟨entries⟩ := m
  change entries.lookup s = some v ↔ (s, v) ∈ entries
  induction entries with
  | nil => simp
  | cons e rest ih =>
    obtain ⟨t, w⟩ := e
    obtain ⟨hfirst, hrest⟩ := List.pairwise_cons.mp h
    by_cases hs : s = t
    · subst hs
      have hnot : (s, v) ∉ rest := fun hmem => lt_irrefl s (hfirst _ hmem)
      simp [hnot, eq_comm]
    · have hbeq : (s == t) = false := by simpa using hs
      simp [List.lookup_cons, hbeq, hs, ih hrest]

theorem insertEntry_of_forall_lt {s : SymbolId} {v : α} {entries : List (SymbolId × α)}
    (h : ∀ e ∈ entries, e.1 < s) : insertEntry s v entries = entries ++ [(s, v)] := by
  induction entries with
  | nil => rfl
  | cons e rest ih =>
    obtain ⟨t, w⟩ := e
    have hlt : t < s := h _ List.mem_cons_self
    rw [insertEntry, if_neg (not_lt.mpr hlt.le), if_neg hlt.ne',
      ih fun f hf => h f (List.mem_cons_of_mem _ hf), List.cons_append]

theorem foldl_insert_of_ascends {front back : List (SymbolId × α)} (h : Ascends (front ++ back)) :
    back.foldl (fun m e => m.insert e.1 e.2) (⟨front⟩ : SymbolMap α) = ⟨front ++ back⟩ := by
  induction back generalizing front with
  | nil => simp
  | cons e back ih =>
    have hlast : ∀ f ∈ front, f.1 < e.1 := fun f hf =>
      (List.pairwise_append.mp h).2.2 f hf e List.mem_cons_self
    have happend : front ++ e :: back = (front ++ [e]) ++ back := by simp
    rw [happend] at h ⊢
    rw [List.foldl_cons, insert, insertEntry_of_forall_lt hlast]
    exact ih h

theorem Ordered.foldl_insert {m : SymbolMap α} (h : m.Ordered) :
    m.entries.foldl (fun m e => m.insert e.1 e.2) {} = m :=
  foldl_insert_of_ascends (show Ascends ([] ++ m.entries) from h)

end CanonicalLR.SymbolMap

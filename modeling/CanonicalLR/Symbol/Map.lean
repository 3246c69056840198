import CanonicalLR.Symbol.Basic

/-! Finite maps from symbols, kept as entries in ascending order of the symbols. A map is described
by what `get?` finds in it. -/

namespace CanonicalLR

structure SymbolMap (α : Type) where
  entries : List (SymbolId × α) := []
deriving DecidableEq, Inhabited

namespace SymbolMap

variable {α : Type}

def insertEntry (s : SymbolId) (v : α) : List (SymbolId × α) → List (SymbolId × α)
  | [] => [(s, v)]
  | (t, w) :: rest =>
    if s < t then (s, v) :: (t, w) :: rest
    else if s = t then (s, v) :: rest
    else (t, w) :: insertEntry s v rest

def get? (m : SymbolMap α) (s : SymbolId) : Option α := m.entries.lookup s

def insert (m : SymbolMap α) (s : SymbolId) (v : α) : SymbolMap α := ⟨insertEntry s v m.entries⟩

def erase (m : SymbolMap α) (s : SymbolId) : SymbolMap α := ⟨m.entries.filter fun e => e.1 != s⟩

def keys (m : SymbolMap α) : List SymbolId := m.entries.map (·.1)

theorem lookup_insertEntry (s t : SymbolId) (v : α) (entries : List (SymbolId × α)) :
    (insertEntry s v entries).lookup t = if t = s then some v else entries.lookup t := by
  induction entries with
  | nil =>
    by_cases h : t = s
    · simp [insertEntry, h]
    · have : (t == s) = false := by simpa using h
      simp [insertEntry, List.lookup_cons, h, this]
  | cons e rest ih =>
    obtain ⟨k, w⟩ := e
    simp only [insertEntry]
    by_cases hts : t = s
    · subst hts
      split
      · simp
      · split
        · simp
        · rename_i h
          have : (t == k) = false := by simpa using h
          simp [List.lookup_cons, ih, this]
    · have hts' : (t == s) = false := by simpa using hts
      split
      · simp [List.lookup_cons, hts']
      · split
        · rename_i h
          subst h
          simp [List.lookup_cons, hts']
        · simp [List.lookup_cons, ih, hts]

@[simp] theorem get?_insert (m : SymbolMap α) (s t : SymbolId) (v : α) :
    (m.insert s v).get? t = if t = s then some v else m.get? t :=
  lookup_insertEntry s t v m.entries

@[simp] theorem get?_erase (m : SymbolMap α) (s t : SymbolId) :
    (m.erase s).get? t = if t = s then none else m.get? t := by
  obtain ⟨entries⟩ := m
  simp only [get?, erase]
  induction entries with
  | nil => simp
  | cons e rest ih =>
    obtain ⟨k, w⟩ := e
    by_cases hk : k = s
    · subst hk
      by_cases ht : t = k
      · subst ht; simpa using ih
      · have : (t == k) = false := by simpa using ht
        simp [List.lookup_cons, this, ih]
    · by_cases ht : t = k
      · subst ht; simp [hk]
      · have : (t == k) = false := by simpa using ht
        simp [hk, List.lookup_cons, this, ih]

end SymbolMap

end CanonicalLR

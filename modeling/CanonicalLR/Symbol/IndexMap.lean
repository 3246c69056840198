/-! Maps that number their keys in the order in which they come in. -/

namespace CanonicalLR

/-- The entries by their numbers. No key is there twice. -/
structure IndexMap (κ α : Type) where
  entries : List (κ × α)
  nodup : (entries.map (·.1)).Nodup

namespace IndexMap

variable {κ α : Type} [DecidableEq κ]

def empty : IndexMap κ α := ⟨[], List.nodup_nil⟩

def size (m : IndexMap κ α) : Nat := m.entries.length

def values (m : IndexMap κ α) : List α := m.entries.map (·.2)

def valueAt? (m : IndexMap κ α) (i : Nat) : Option α := (m.entries[i]?).map (·.2)

def indexOf? (m : IndexMap κ α) (key : κ) : Option Nat := m.entries.findIdx? (·.1 = key)

def get? (m : IndexMap κ α) (key : κ) : Option α := (m.indexOf? key).bind m.valueAt?

/-- The number of a key with its value. -/
def full? (m : IndexMap κ α) (key : κ) : Option (Nat × α) :=
  (m.indexOf? key).bind fun i => (m.valueAt? i).map fun value => (i, value)

/-- A key that is there keeps its number and gets the new value. -/
def insertEntry (key : κ) (value : α) : List (κ × α) → List (κ × α)
  | [] => [(key, value)]
  | (k, v) :: rest => if k = key then (k, value) :: rest else (k, v) :: insertEntry key value rest

theorem keys_insertEntry (key : κ) (value : α) (entries : List (κ × α)) :
    (insertEntry key value entries).map (·.1) =
      if key ∈ entries.map (·.1) then entries.map (·.1) else entries.map (·.1) ++ [key] := by
  induction entries with
  | nil => rfl
  | cons entry rest ih =>
    obtain ⟨k, v⟩ := entry
    by_cases hk : k = key
    · simp [insertEntry, hk]
    · have hne : key ≠ k := fun he => hk he.symm
      simp only [insertEntry, if_neg hk, List.map_cons, ih, List.mem_cons, hne, false_or]
      split <;> rfl

def insert (m : IndexMap κ α) (key : κ) (value : α) : IndexMap κ α where
  entries := insertEntry key value m.entries
  nodup := by
    rw [keys_insertEntry]
    split
    · exact m.nodup
    · next hkey =>
      exact List.nodup_append.mpr ⟨m.nodup, by simp, fun k hk k' hk' he => by
        obtain rfl := List.mem_singleton.mp hk'
        exact hkey (he ▸ hk)⟩

end IndexMap

end CanonicalLR

import CanonicalLR.Grammar.Collection
import CanonicalLR.Proofs.Item.Closure

/-! The items that can be reached with a sequence of symbols. Following the sequence from the seed,
from set to set, gives just these items. -/

namespace CanonicalLR

variable {a : Analysis} {path : List SymbolId} {i d j : Nat} {ahead ahead' : Option SymbolId}
  {s : SymbolId}

inductive Reaches (a : Analysis) : List SymbolId → Nat → Nat → Option SymbolId → Prop where
  | start {ahead : Option SymbolId} : (∀ t, ahead = some t → t = .finish) → Reaches a [] 0 0 ahead
  | shift {path : List SymbolId} {i d : Nat} {ahead : Option SymbolId} {s : SymbolId} :
      Reaches a path i d ahead → (a.rhs i)[d]? = some s → Reaches a (path ++ [s]) i (d + 1) ahead
  | predict {path : List SymbolId} {i d j : Nat} {ahead ahead' : Option SymbolId} :
      Reaches a path i d ahead → Predicts a i d ahead j ahead' → Reaches a path j 0 ahead'

theorem Reaches.none (h : Reaches a path i d ahead) : Reaches a path i d .none := by
  induction h with
  | start _ => exact .start fun _ h => by cases h
  | shift _ hs ih => exact ih.shift hs
  | predict h hp _ =>
    obtain ⟨rule, hrule, hdot, -⟩ := hp
    exact h.predict ⟨rule, hrule, hdot, fun _ h => by cases h⟩

theorem Reaches.split (h : Reaches a path i d ahead) :
    ∃ before, path = before ++ (a.rhs i).take d ∧ Reaches a before i 0 ahead := by
  induction h with
  | start hf => exact ⟨[], by simp, .start hf⟩
  | @shift path i d ahead s _ hs ih =>
    obtain ⟨before, rfl, hb⟩ := ih
    refine ⟨before, ?_, hb⟩
    rw [List.append_assoc, List.take_add_one, hs, Option.toList_some]
  | predict h hp _ => exact ⟨_, by simp, h.predict hp⟩

theorem Reaches.isTerminal {t : SymbolId} (ha : a.Faithful)
    (h : Reaches a path i d (some t)) : a.symbols.isTerminal t = true := by
  generalize ho : some t = ahead at h
  induction h with
  | start hf =>
    rw [hf t ho.symm]
    exact ha.table.registry.isTerminal_finish
  | shift _ _ ih => exact ih ho
  | predict _ hp ih =>
    obtain ⟨rule, -, -, hleads⟩ := hp
    rcases hleads t ho.symm with hs | ⟨-, hahead⟩
    · exact hs.isTerminal
    · exact ih hahead.symm

theorem Reaches.zero_cases (h : Reaches a path j 0 ahead') :
    (path = [] ∧ j = 0 ∧ ∀ t, ahead' = some t → t = .finish) ∨
      ∃ i d ahead, Reaches a path i d ahead ∧ Predicts a i d ahead j ahead' := by
  cases h with
  | start hf => exact Or.inl ⟨rfl, rfl, hf⟩
  | predict h hp => exact Or.inr ⟨_, _, _, h, hp⟩

theorem Reaches.within (hpos : 0 < a.rules.length) (h : Reaches a path i d ahead) :
    i < a.rules.length ∧ d ≤ (a.rhs i).length := by
  induction h with
  | start _ => exact ⟨hpos, Nat.zero_le _⟩
  | shift _ hs ih => exact ⟨ih.1, (List.getElem?_eq_some_iff.mp hs).1⟩
  | predict _ hp _ =>
    obtain ⟨rule, hrule, -⟩ := hp
    exact ⟨(List.getElem?_eq_some_iff.mp hrule).1, Nat.zero_le _⟩

theorem Reaches.exists_of_append_singleton (h : Reaches a (path ++ [s]) i d ahead) :
    ∃ j e ahead', Reaches a path j e ahead' ∧ (a.rhs j)[e]? = some s := by
  generalize hp : path ++ [s] = whole at h
  induction h with
  | start => simp at hp
  | @shift path' i d ahead s' h hs ih =>
    obtain ⟨rfl, hss⟩ := List.append_inj' hp rfl
    obtain rfl := List.singleton_inj.mp hss
    exact ⟨i, d, ahead, h, hs⟩
  | predict _ _ ih => exact ih hp

theorem Reaches.exists_of_append {more : List SymbolId} (h : Reaches a (path ++ more) i d ahead) :
    ∃ j e ahead', Reaches a path j e ahead' := by
  induction more using List.reverseRecOn generalizing i d ahead with
  | nil => exact ⟨i, d, ahead, by simpa using h⟩
  | append_singleton more s ih =>
    rw [← List.append_assoc] at h
    obtain ⟨j, e, ahead', hj, -⟩ := h.exists_of_append_singleton
    exact ih hj

/-- A reduction leads back to where its rule was predicted. -/
theorem Reaches.pop {rule : Rule} (hrule : a.rules[i]? = some rule)
    (h : Reaches a path i rule.rhs.length ahead) :
    ∃ before, path = before ++ rule.rhs ∧ Reaches a before i 0 ahead := by
  obtain ⟨before, hp, hb⟩ := h.split
  rw [Analysis.rhs_eq hrule, List.take_length] at hp
  exact ⟨before, hp, hb⟩

theorem Reaches.advance {ids rest : List SymbolId} (h : Reaches a path i d ahead)
    (hd : (a.rhs i).drop d = ids ++ rest) :
    Reaches a (path ++ ids) i (d + ids.length) ahead ∧
      (a.rhs i).drop (d + ids.length) = rest := by
  induction ids generalizing path d with
  | nil => exact ⟨by simpa using h, by simpa using hd⟩
  | cons s ids ih =>
    have hs : (a.rhs i)[d]? = some s := by
      rw [← List.head?_drop, hd, List.cons_append, List.head?_cons]
    have hrest : (a.rhs i).drop (d + 1) = ids ++ rest := by
      rw [← List.tail_drop, hd, List.cons_append, List.tail_cons]
    obtain ⟨hr, he⟩ := ih (h.shift hs) hrest
    rw [List.append_assoc] at hr
    rw [List.length_cons, ← Nat.add_assoc, Nat.add_right_comm]
    exact ⟨hr, he⟩

namespace ItemSet

variable {set : ItemSet}

theorem has_shiftOver (set : ItemSet) (a : Analysis) (s : SymbolId) (i e : Nat)
    (ahead : Option SymbolId) :
    (set.shiftOver a s).Has i e ahead ↔
      ∃ d, e = d + 1 ∧ set.Has i d ahead ∧ (a.rhs i)[d]? = some s := by
  simp only [shiftOver, has_ofList, List.mem_map, List.mem_filter, beq_iff_eq, Item.next?]
  constructor
  · rintro ⟨_, ⟨it, ⟨hit, hnext⟩, rfl⟩, rfl, rfl, hfollow⟩
    exact ⟨it.dot, rfl, ⟨it, hit, rfl, rfl, hfollow⟩, hnext⟩
  · rintro ⟨d, rfl, ⟨it, hit, rfl, rfl, hfollow⟩, hnext⟩
    exact ⟨_, ⟨it, ⟨hit, hnext⟩, rfl⟩, rfl, rfl, hfollow⟩

theorem tidy_goto (set : ItemSet) (a : Analysis) (s : SymbolId) : (set.goto a s).Tidy :=
  (tidy_ofList _).close a

theorem has_goto (ha : a.Faithful) (set : ItemSet) (s : SymbolId) :
    (set.goto a s).Has i d ahead ↔ Closure a (set.shiftOver a s).Has i d ahead :=
  has_close ha (tidy_ofList _)

theorem tidy_seed (a : Analysis) : (Collection.seed a).Tidy := (tidy_ofList _).close a

theorem has_seed (ha : a.Faithful) :
    (Collection.seed a).Has i d ahead ↔
      Closure a (ItemSet.ofList [⟨0, 0, .single .finish⟩]).Has i d ahead :=
  has_close ha (tidy_ofList _)

/-- The set holds the items that are reached with a sequence of symbols. -/
def Spells (a : Analysis) (set : ItemSet) (path : List SymbolId) : Prop :=
  ∀ i d ahead, set.Has i d ahead ↔ Reaches a path i d ahead

theorem spells_seed (ha : a.Faithful) : (Collection.seed a).Spells a [] := by
  intro i d ahead
  rw [has_seed ha]
  constructor
  · intro h
    induction h with
    | base hk =>
      obtain ⟨it, hit, rfl, rfl, hfollow⟩ := (has_ofList _ _ _ _).mp hk
      obtain rfl := List.mem_singleton.mp hit
      exact .start fun t ht => by simpa using hfollow t ht
    | predict _ hp ih => exact ih.predict hp
  · intro h
    generalize hpath : ([] : List SymbolId) = path at h
    induction h with
    | start hf =>
      refine .base ((has_ofList _ _ _ _).mpr ⟨_, List.mem_singleton_self _, rfl, rfl, ?_⟩)
      intro t ht
      simp [hf t ht]
    | shift => simp at hpath
    | predict _ hp ih => exact (ih hpath).predict hp

theorem Spells.goto (ha : a.Faithful) (h : set.Spells a path) (s : SymbolId) :
    (set.goto a s).Spells a (path ++ [s]) := by
  intro i d ahead
  rw [has_goto ha]
  constructor
  · intro hc
    induction hc with
    | base hk =>
      obtain ⟨d, rfl, hhas, hs⟩ := (has_shiftOver _ _ _ _ _ _).mp hk
      exact ((h _ _ _).mp hhas).shift hs
    | predict _ hp ih => exact ih.predict hp
  · intro hr
    generalize hpath : path ++ [s] = whole at hr
    induction hr with
    | start => simp at hpath
    | @shift path' i d ahead s' hr hs ih =>
      obtain ⟨rfl, hss⟩ := List.append_inj' hpath rfl
      obtain rfl := List.singleton_inj.mp hss
      exact .base ((has_shiftOver _ _ _ _ _ _).mpr ⟨d, rfl, (h _ _ _).mpr hr, hs⟩)
    | predict _ hp ih => exact (ih hpath).predict hp

theorem Spells.same_iff {other : ItemSet} (h : set.Spells a path) (hset : set.Tidy)
    (hother : other.Tidy) : other.same set = true ↔ other.Spells a path := by
  rw [hother.same_iff hset]
  exact forall_congr' fun i => forall_congr' fun d => forall_congr' fun ahead => by rw [h i d ahead]

def after (a : Analysis) (path : List SymbolId) : ItemSet :=
  path.foldl (fun set s => set.goto a s) (Collection.seed a)

theorem after_append_singleton (a : Analysis) (path : List SymbolId) (s : SymbolId) :
    after a (path ++ [s]) = (after a path).goto a s := by
  simp [after]

theorem tidy_after (a : Analysis) (path : List SymbolId) : (after a path).Tidy := by
  cases path using List.reverseRecOn with
  | nil => exact tidy_seed a
  | append_singleton path s =>
    rw [after_append_singleton]
    exact tidy_goto _ a s

theorem spells_after (ha : a.Faithful) (path : List SymbolId) : (after a path).Spells a path := by
  induction path using List.reverseRecOn with
  | nil => exact spells_seed ha
  | append_singleton path s ih =>
    rw [after_append_singleton]
    exact ih.goto ha s

end ItemSet

end CanonicalLR

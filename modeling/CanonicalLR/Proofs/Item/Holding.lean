import CanonicalLR.Item.Set
import CanonicalLR.Proofs.Saturate
import CanonicalLR.Proofs.Symbol.Set
import Mathlib.Data.List.Sort

/-! What an item set holds: a rule with a dot in it, and a terminal that may follow. Sets that are
made by adding items hold each rule and dot once, and then holding the same is being the same. -/

namespace CanonicalLR

/-- The item stands for a rule with a dot, and for a terminal ahead if one is asked for. -/
def Item.Is (it : Item) (i d : Nat) (ahead : Option SymbolId) : Prop :=
  it.rule = i ∧ it.dot = d ∧ ∀ t, ahead = some t → it.follow.contains t = true

namespace ItemSet

def Has (set : ItemSet) (i d : Nat) (ahead : Option SymbolId) : Prop :=
  ∃ it ∈ set.items, it.Is i d ahead

def Tidy (set : ItemSet) : Prop := (set.items.map position).Nodup

theorem has_empty (i d : Nat) (ahead : Option SymbolId) : ¬ ({} : ItemSet).Has i d ahead := by
  rintro ⟨it, hit, -⟩
  cases hit

theorem exists_addTo (item : Item) (items : List Item) (i d : Nat) (ahead : Option SymbolId) :
    (∃ it ∈ addTo item items, it.Is i d ahead) ↔
      (∃ it ∈ items, it.Is i d ahead) ∨ item.Is i d ahead := by
  induction items with
  | nil => simp [addTo]
  | cons x rest ih =>
    simp only [addTo]
    by_cases hx : x.rule = item.rule ∧ x.dot = item.dot
    · rw [if_pos hx]
      simp only [List.exists_mem_cons_iff]
      have hmerge : ({ x with follow := x.follow.merge item.follow } : Item).Is i d ahead ↔
          x.Is i d ahead ∨ item.Is i d ahead := by
        cases ahead with
        | none => simp [Item.Is, hx.1, hx.2]
        | some t =>
          simp only [Item.Is, hx.1, hx.2, Option.some.injEq, forall_eq',
            SymbolSet.contains_merge, Bool.or_eq_true]
          tauto
      rw [hmerge, or_right_comm]
    · rw [if_neg hx]
      simp only [List.exists_mem_cons_iff, ih, or_assoc]

theorem has_add (set : ItemSet) (item : Item) (i d : Nat) (ahead : Option SymbolId) :
    (set.add item).Has i d ahead ↔ set.Has i d ahead ∨ item.Is i d ahead :=
  exists_addTo item set.items i d ahead

theorem has_addAll (set : ItemSet) (items : List Item) (i d : Nat) (ahead : Option SymbolId) :
    (set.addAll items).Has i d ahead ↔
      set.Has i d ahead ∨ ∃ it ∈ items, it.Is i d ahead := by
  induction items generalizing set with
  | nil => simp [addAll]
  | cons item items ih =>
    have hh := ih (set.add item)
    simp only [addAll, List.foldl_cons] at hh ⊢
    rw [hh, has_add, List.exists_mem_cons_iff, or_assoc]

theorem has_ofList (items : List Item) (i d : Nat) (ahead : Option SymbolId) :
    (ofList items).Has i d ahead ↔ ∃ it ∈ items, it.Is i d ahead := by
  simp [ofList, has_addAll, has_empty]

/-! The rules and dots in a set. -/

theorem position_eq_iff (it item : Item) :
    position it = position item ↔ it.rule = item.rule ∧ it.dot = item.dot := by
  simp [position]

theorem positions_addTo (item : Item) (items : List Item) :
    (addTo item items).map position =
      if position item ∈ items.map position then items.map position
      else items.map position ++ [position item] := by
  induction items with
  | nil => simp [addTo]
  | cons x rest ih =>
    by_cases hx : x.rule = item.rule ∧ x.dot = item.dot
    · simp [addTo, hx, position]
    · have he : ¬ position item = position x :=
        fun h => hx ((position_eq_iff x item).mp h.symm)
      simp only [addTo, if_neg hx, List.map_cons, ih, List.mem_cons, he, false_or]
      split <;> simp

theorem Tidy.add {set : ItemSet} (h : set.Tidy) (item : Item) : (set.add item).Tidy := by
  unfold Tidy at h ⊢
  simp only [ItemSet.add, positions_addTo]
  split
  · exact h
  · rename_i hn
    exact List.nodup_append.mpr ⟨h, by simp, fun p hp q hq => by
      rw [List.mem_singleton.mp hq]
      exact fun he => hn (he ▸ hp)⟩

theorem Tidy.addAll {set : ItemSet} (h : set.Tidy) (items : List Item) :
    (set.addAll items).Tidy :=
  List.foldlRecOn _ _ h fun _ hs item _ => hs.add item

theorem tidy_ofList (items : List Item) : (ofList items).Tidy :=
  Tidy.addAll (show Tidy {} from List.nodup_nil) items

theorem Tidy.eq_of_position {set : ItemSet} (h : set.Tidy) {x y : Item} (hx : x ∈ set.items)
    (hy : y ∈ set.items) (hr : x.rule = y.rule) (hd : x.dot = y.dot) : x = y :=
  List.inj_on_of_nodup_map h hx hy ((position_eq_iff x y).mpr ⟨hr, hd⟩)

/-! Adding an item changes nothing or makes the set heavier. -/

def weight (items : List Item) : Nat :=
  items.foldr (fun it total => 1 + it.follow.size + total) 0

theorem addTo_eq_or_weight_lt (item : Item) (items : List Item) :
    addTo item items = items ∨ weight items < weight (addTo item items) := by
  induction items with
  | nil => right; simp only [addTo, weight, List.foldr]; omega
  | cons x rest ih =>
    simp only [addTo]
    split
    · rcases x.follow.merge_eq_or_size_lt item.follow with he | hlt
      · left
        rw [he]
      · right
        simp only [weight, List.foldr]
        omega
    · rcases ih with he | hlt
      · left
        rw [he]
      · right
        simp only [weight, List.foldr] at hlt ⊢
        omega

theorem advances_add (set : ItemSet) (item : Item) :
    Advances (fun set : ItemSet => weight set.items) set (set.add item) := by
  rcases addTo_eq_or_weight_lt item set.items with he | hlt
  · left
    rw [add, he]
  · exact Or.inr hlt

theorem weight_le (items : List Item) : weight items ≤ (maxSymbols + 1) * items.length := by
  induction items with
  | nil => simp [weight]
  | cons x rest ih =>
    have hx := x.follow.size_le
    simp only [weight, List.foldr, List.length_cons, Nat.mul_add] at ih ⊢
    omega

theorem has_of_add_eq {set : ItemSet} {item : Item} (h : set.add item = set) {i d : Nat}
    {ahead : Option SymbolId} (hi : item.Is i d ahead) : set.Has i d ahead := by
  rw [← h]
  exact (has_add set item i d ahead).mpr (Or.inr hi)

/-! Equality of sets. -/

theorem Tidy.nodup {set : ItemSet} (h : set.Tidy) : set.items.Nodup := List.Nodup.of_map position h

theorem Tidy.mem_of_has {a b : ItemSet} (hb : b.Tidy)
    (h : ∀ i d ahead, a.Has i d ahead ↔ b.Has i d ahead) (ha : a.Tidy) {it : Item}
    (hit : it ∈ a.items) : it ∈ b.items := by
  obtain ⟨other, hother, hr, hd, -⟩ :=
    (h it.rule it.dot none).mp ⟨it, hit, rfl, rfl, fun _ ht => by cases ht⟩
  have hfollow : it.follow = other.follow := by
    apply SymbolSet.ext_contains
    intro t
    rw [Bool.eq_iff_iff]
    constructor
    · intro ht
      obtain ⟨x, hx, hxr, hxd, hxt⟩ := (h it.rule it.dot (some t)).mp
        ⟨it, hit, rfl, rfl, fun s hs => by cases hs; exact ht⟩
      rw [← hb.eq_of_position hx hother (hxr.trans hr.symm) (hxd.trans hd.symm)]
      exact hxt t rfl
    · intro ht
      obtain ⟨x, hx, hxr, hxd, hxt⟩ := (h it.rule it.dot (some t)).mpr
        ⟨other, hother, hr, hd, fun s hs => by cases hs; exact ht⟩
      rw [← ha.eq_of_position hx hit hxr hxd]
      exact hxt t rfl
  have he : it = other := by
    cases it
    cases other
    simp_all
  exact he ▸ hother

theorem Tidy.perm_of_has {a b : ItemSet} (ha : a.Tidy) (hb : b.Tidy)
    (h : ∀ i d ahead, a.Has i d ahead ↔ b.Has i d ahead) : a.items.Perm b.items :=
  (List.perm_ext_iff_of_nodup ha.nodup hb.nodup).mpr fun _ =>
    ⟨hb.mem_of_has h ha, ha.mem_of_has (fun i d ahead => (h i d ahead).symm) hb⟩

/-- A tidy set is the same as another just when it has the other's items in some order. That all of
its items are among the other's is enough, since it holds none of them twice. -/
theorem Tidy.same_iff_perm {a : ItemSet} (ha : a.Tidy) (b : ItemSet) :
    a.same b = true ↔ a.items.Perm b.items := by
  simp only [same, Bool.and_eq_true, beq_iff_eq, List.all_eq_true, List.contains_iff_mem]
  exact ⟨fun ⟨hlen, hsub⟩ => (ha.nodup.subperm hsub).perm_of_length_le hlen.ge,
    fun hperm => ⟨hperm.length_eq, fun _ hit => hperm.mem_iff.mp hit⟩⟩

/-- Tidy sets are the same set just when they hold the same. -/
theorem Tidy.same_iff {a b : ItemSet} (ha : a.Tidy) (hb : b.Tidy) :
    a.same b = true ↔ ∀ i d ahead, a.Has i d ahead ↔ b.Has i d ahead := by
  rw [ha.same_iff_perm b]
  constructor
  · intro hperm i d ahead
    simp only [Has, hperm.mem_iff]
  · exact ha.perm_of_has hb

theorem Tidy.same_symm {a b : ItemSet} (ha : a.Tidy) (hb : b.Tidy) (h : a.same b = true) :
    b.same a = true :=
  (hb.same_iff_perm a).mpr ((ha.same_iff_perm b).mp h).symm

theorem Tidy.same_trans {a b c : ItemSet} (ha : a.Tidy) (hb : b.Tidy) (h : a.same b = true)
    (h' : b.same c = true) : a.same c = true :=
  (ha.same_iff_perm c).mpr (((ha.same_iff_perm b).mp h).trans ((hb.same_iff_perm c).mp h'))

/-! The core does not depend on the order of the items. -/

theorem positionLe_iff (x y : Nat × Nat) :
    positionLe x y = true ↔ x.1 < y.1 ∨ (x.1 = y.1 ∧ x.2 ≤ y.2) := by
  simp [positionLe]

instance : Std.Total fun x y => positionLe x y = true :=
  ⟨fun x y => by simp only [positionLe_iff]; omega⟩

instance : IsTrans (Nat × Nat) fun x y => positionLe x y = true :=
  ⟨fun x y z hxy hyz => by simp only [positionLe_iff] at *; omega⟩

instance : Std.Antisymm fun x y => positionLe x y = true :=
  ⟨fun x y hxy hyx => by simp only [positionLe_iff] at *; ext <;> omega⟩

theorem core_eq_insertionSort (set : ItemSet) :
    set.core = (set.items.map position).insertionSort fun x y => positionLe x y = true := by
  have he : ∀ x rest, insertPosition x rest =
      rest.orderedInsert (fun x y => positionLe x y = true) x := by
    intro x rest
    induction rest with
    | nil => rfl
    | cons y rest ih => simp only [insertPosition, List.orderedInsert, ih]
  unfold core List.insertionSort
  congr 1
  funext x rest
  exact he x rest

theorem Tidy.core_eq {a b : ItemSet} (ha : a.Tidy) (h : a.same b = true) : a.core = b.core := by
  have hperm := ((ha.same_iff_perm b).mp h).map position
  rw [core_eq_insertionSort, core_eq_insertionSort]
  refine List.Perm.eq_of_pairwise' (List.pairwise_insertionSort _ _)
    (List.pairwise_insertionSort _ _) ?_
  exact (List.perm_insertionSort _ _).trans (hperm.trans (List.perm_insertionSort _ _).symm)

end ItemSet

end CanonicalLR

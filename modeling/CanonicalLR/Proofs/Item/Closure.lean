import CanonicalLR.Proofs.Analysis
import CanonicalLR.Proofs.Item.Holding

/-! Closing a set of items. The walks over a set end at the least set that holds what every item
in it predicts. -/

namespace CanonicalLR

variable {a : Analysis} {i d j : Nat} {ahead ahead' : Option SymbolId}

/-- The nonterminal after the dot has rule `j`, and `ahead'` can come first behind it. -/
def Predicts (a : Analysis) (i d : Nat) (ahead : Option SymbolId) (j : Nat)
    (ahead' : Option SymbolId) : Prop :=
  ∃ rule, a.rules[j]? = some rule ∧ (a.rhs i)[d]? = some rule.lhs ∧
    ∀ t, ahead' = some t → Leads a.symbols a.rules t ((a.rhs i).drop (d + 1)) ahead

inductive Closure (a : Analysis) (kernel : Nat → Nat → Option SymbolId → Prop) :
    Nat → Nat → Option SymbolId → Prop where
  | base {i d : Nat} {ahead : Option SymbolId} :
      kernel i d ahead → Closure a kernel i d ahead
  | predict {i d j : Nat} {ahead ahead' : Option SymbolId} :
      Closure a kernel i d ahead → Predicts a i d ahead j ahead' → Closure a kernel j 0 ahead'

/-- Each rule knows its place. -/
def Analysis.Indexed (a : Analysis) : Prop :=
  ∀ (j : Nat) (rule : Rule), a.rules[j]? = some rule → rule.index = j

namespace Item

theorem start_of_mem_closure (ha : a.Indexed) {it x : Item} (h : x ∈ it.closure a) :
    x.rule < a.rules.length ∧ x.dot = 0 := by
  unfold closure at h
  split at h
  · cases h
  · split at h
    · cases h
    · obtain ⟨rule, hrule, rfl⟩ := List.mem_map.mp h
      obtain ⟨j, hj⟩ := List.mem_iff_getElem?.mp (List.mem_filter.mp hrule).1
      have hlt := (List.getElem?_eq_some_iff.mp hj).1
      exact ⟨by rwa [← ha j rule hj] at hlt, rfl⟩

theorem contains_followAfter (ha : a.Faithful) (it : Item) (rest : List SymbolId) (t : SymbolId) :
    (it.followAfter a rest).contains t = true ↔
      Starts a.symbols a.rules t rest ∨
        (Vanishes a.symbols a.rules rest ∧ it.follow.contains t = true) := by
  rw [← ha.contains_firstOfAll_iff, ← ha.allNullable_iff, followAfter]
  split <;> simp [*]

theorem ahead_eq_cons {it : Item} {s : SymbolId} {rest : List SymbolId}
    (h : it.ahead a = s :: rest) :
    (a.rhs it.rule)[it.dot]? = some s ∧ (a.rhs it.rule).drop (it.dot + 1) = rest := by
  constructor
  · rw [← List.head?_drop, show (a.rhs it.rule).drop it.dot = s :: rest from h, List.head?_cons]
  · rw [← List.tail_drop, show (a.rhs it.rule).drop it.dot = s :: rest from h, List.tail_cons]

theorem mem_closure (ha : a.Faithful) {it x : Item} :
    x ∈ it.closure a ↔ ∃ rule, a.rules[x.rule]? = some rule ∧
      (a.rhs it.rule)[it.dot]? = some rule.lhs ∧ x.dot = 0 ∧
      x.follow = it.followAfter a ((a.rhs it.rule).drop (it.dot + 1)) := by
  simp only [closure]
  cases hahead : it.ahead a with
  | nil =>
    have hdot : (a.rhs it.rule)[it.dot]? = none := by
      rw [← List.head?_drop, show (a.rhs it.rule).drop it.dot = [] from hahead, List.head?_nil]
    simp [hdot]
  | cons s rest =>
    obtain ⟨hdot, hrest⟩ := ahead_eq_cons hahead
    by_cases ht : a.symbols.isTerminal s = true
    · simp only [ht, if_true, List.not_mem_nil, hdot, Option.some.injEq, false_iff]
      rintro ⟨rule, hrule, rfl, -⟩
      have hn := ha.nonterminal hrule
      rw [ht] at hn
      cases hn
    · simp only [ht, Bool.false_eq_true, if_false, Analysis.rulesFor, List.mem_map,
        List.mem_filter, beq_iff_eq, hdot, hrest, Option.some.injEq]
      constructor
      · rintro ⟨rule, ⟨hmem, rfl⟩, rfl⟩
        obtain ⟨k, hk⟩ := List.mem_iff_getElem?.mp hmem
        exact ⟨rule, by rw [ha.index k rule hk]; exact hk, rfl, rfl, rfl⟩
      · rintro ⟨rule, hrule, rfl, hd, hf⟩
        refine ⟨rule, ⟨List.mem_of_getElem? hrule, rfl⟩, ?_⟩
        cases x
        simp_all [ha.index _ rule hrule]

theorem exists_closure_iff (ha : a.Faithful) (it : Item) (j e : Nat) (ahead' : Option SymbolId) :
    (∃ x ∈ it.closure a, x.Is j e ahead') ↔
      e = 0 ∧ ∃ ahead, it.Is it.rule it.dot ahead ∧ Predicts a it.rule it.dot ahead j ahead' := by
  constructor
  · rintro ⟨x, hx, rfl, rfl, hfollow⟩
    obtain ⟨rule, hrule, hdot, hd, hf⟩ := (mem_closure ha).mp hx
    refine ⟨hd, ?_⟩
    cases ahead' with
    | none => exact ⟨none, ⟨rfl, rfl, fun _ h => by cases h⟩, rule, hrule, hdot, fun _ h => by cases h⟩
    | some t =>
      have ht := hfollow t rfl
      rw [hf, contains_followAfter ha] at ht
      rcases ht with hs | ⟨hv, ht⟩
      · exact ⟨none, ⟨rfl, rfl, fun _ h => by cases h⟩, rule, hrule, hdot,
          fun s h => by cases h; exact Or.inl hs⟩
      · exact ⟨some t, ⟨rfl, rfl, fun s h => by cases h; exact ht⟩, rule, hrule, hdot,
          fun s h => by cases h; exact Or.inr ⟨hv, rfl⟩⟩
  · rintro ⟨rfl, ahead, ⟨-, -, hit⟩, rule, hrule, hdot, hleads⟩
    refine ⟨⟨j, 0, it.followAfter a ((a.rhs it.rule).drop (it.dot + 1))⟩,
      (mem_closure ha).mpr ⟨rule, hrule, hdot, rfl, rfl⟩, rfl, rfl, fun t ht => ?_⟩
    rw [contains_followAfter ha]
    exact (hleads t ht).imp_right fun h => ⟨h.1, hit t h.2⟩

end Item

namespace ItemSet

variable {set : ItemSet}

/-! Walks keep a set tidy and add only what is predicted. -/

theorem closePass_induct {P : ItemSet → Prop}
    (hat : ∀ set place, P set → P (closeAt a set place)) (h : P set) : P (closePass a set) :=
  List.foldlRecOn _ _ h fun set hs place _ => hat set place hs

theorem close_induct {P : ItemSet → Prop} (hat : ∀ set place, P set → P (closeAt a set place))
    (h : P set) : P (set.close a) :=
  saturate_induct (P := P) (fun _ => closePass_induct hat) _ h

theorem Tidy.closeAt (h : set.Tidy) (a : Analysis) (place : Nat) : (closeAt a set place).Tidy := by
  unfold ItemSet.closeAt
  split
  · exact h
  · exact h.addAll _

theorem Tidy.close (h : set.Tidy) (a : Analysis) : (set.close a).Tidy :=
  close_induct (P := Tidy) (fun _ place hs => hs.closeAt a place) h

theorem closure_of_has_closeAt (ha : a.Faithful) {kernel : Nat → Nat → Option SymbolId → Prop}
    (h : ∀ i d ahead, set.Has i d ahead → Closure a kernel i d ahead) (place : Nat) :
    ∀ i d ahead, (closeAt a set place).Has i d ahead → Closure a kernel i d ahead := by
  intro j e ahead' hj
  unfold closeAt at hj
  split at hj
  · exact h j e ahead' hj
  · rename_i it hit
    rcases (has_addAll _ _ _ _ _).mp hj with hj | hj
    · exact h j e ahead' hj
    · obtain ⟨rfl, ahead, his, hp⟩ := (Item.exists_closure_iff ha it j e ahead').mp hj
      exact .predict (h _ _ _ ⟨it, List.mem_of_getElem? hit, his⟩) hp

/-! The walks end. -/

theorem advances_closeAt (a : Analysis) (set : ItemSet) (place : Nat) :
    Advances (fun set : ItemSet => weight set.items) set (closeAt a set place) := by
  unfold closeAt
  split
  · exact .refl _ set
  · exact .foldl advances_add _ set

/-- The positions of a set that grew out of `first` by adding starts of rules. -/
def Outgrown (a : Analysis) (first set : ItemSet) : Prop :=
  set.Tidy ∧ ∀ p ∈ set.items.map position,
    p ∈ first.items.map position ++ (List.range a.rules.length).map (·, 0)

theorem Outgrown.add {first : ItemSet} (h : Outgrown a first set) {item : Item}
    (hr : item.rule < a.rules.length) (hd : item.dot = 0) : Outgrown a first (set.add item) := by
  refine ⟨h.1.add item, fun p hp => ?_⟩
  simp only [ItemSet.add, positions_addTo] at hp
  split at hp
  · exact h.2 p hp
  · rcases List.mem_append.mp hp with hp | hp
    · exact h.2 p hp
    · rw [List.mem_singleton.mp hp]
      exact List.mem_append_right _
        (List.mem_map.mpr ⟨item.rule, List.mem_range.mpr hr, by rw [position, hd]⟩)

theorem Outgrown.addAll (ha : a.Indexed) {first : ItemSet} (h : Outgrown a first set) (it : Item) :
    Outgrown a first (set.addAll (it.closure a)) :=
  List.foldlRecOn _ _ h fun _ hs _ hx =>
    hs.add (Item.start_of_mem_closure ha hx).1 (Item.start_of_mem_closure ha hx).2

theorem Outgrown.closeAt (ha : a.Indexed) {first : ItemSet} (h : Outgrown a first set)
    (place : Nat) : Outgrown a first (closeAt a set place) := by
  unfold ItemSet.closeAt
  split
  · exact h
  · exact h.addAll ha _

theorem Outgrown.length_le {first : ItemSet} (h : Outgrown a first set) :
    set.items.length ≤ first.items.length + a.rules.length := by
  have hlen : (set.items.map position).length ≤ _ :=
    (List.Nodup.subperm h.1 h.2).length_le
  simpa only [List.length_map, List.length_append, List.length_range] using hlen

theorem Outgrown.weight_le {first : ItemSet} (h : Outgrown a first set) :
    weight set.items ≤ (maxSymbols + 1) * (first.items.length + a.rules.length) :=
  (ItemSet.weight_le set.items).trans (Nat.mul_le_mul_left _ h.length_le)

theorem advances_closePass (a : Analysis) (set : ItemSet) :
    Advances (fun set : ItemSet => weight set.items) set (closePass a set) :=
  .foldl (advances_closeAt a) _ _

theorem outgrown_refl (a : Analysis) (h : set.Tidy) : Outgrown a set set :=
  ⟨h, fun _ hp => List.mem_append_left _ hp⟩

/-- The rounds suffice for any rules that know their places. -/
theorem saturates_close_of_indexed (ha : a.Indexed) (h : set.Tidy) :
    Saturates (closePass a) set (set.close a) :=
  saturates_saturate (P := Outgrown a set)
    (fun _ => closePass_induct fun _ place hs => hs.closeAt ha place)
    (advances_closePass a) (fun _ hs => hs.weight_le)
    (outgrown_refl a h) (by simp only [closeRounds]; omega)

theorem saturates_close (ha : a.Faithful) (h : set.Tidy) :
    Saturates (closePass a) set (set.close a) :=
  saturates_close_of_indexed ha.index h

theorem close_close (ha : a.Faithful) (h : set.Tidy) : (set.close a).close a = set.close a :=
  saturate_of_fixed (saturates_close ha h).fixed _

/-- Where a walk changes nothing, everything that is predicted is there. -/
theorem add_eq_of_fixed (hfixed : closePass a set = set) {it x : Item} (hit : it ∈ set.items)
    (hx : x ∈ it.closure a) : set.add x = set := by
  obtain ⟨place, hplace⟩ := List.mem_iff_getElem?.mp hit
  have hlt : place < set.items.length := (List.getElem?_eq_some_iff.mp hplace).1
  have hat : closeAt a set place = set := by
    refine Advances.of_foldl_eq (advances_closeAt a) hfixed place (List.mem_range.mpr ?_)
    omega
  simp only [closeAt, hplace] at hat
  exact Advances.of_foldl_eq advances_add hat x hx

theorem has_of_predicts (ha : a.Faithful) (hfixed : closePass a set = set)
    (h : set.Has i d ahead) (hp : Predicts a i d ahead j ahead') : set.Has j 0 ahead' := by
  obtain ⟨it, hit, hr, hd, hfollow⟩ := h
  subst hr hd
  obtain ⟨x, hx, his⟩ := (Item.exists_closure_iff ha it j 0 ahead').mpr
    ⟨rfl, ahead, ⟨rfl, rfl, hfollow⟩, hp⟩
  exact has_of_add_eq (add_eq_of_fixed hfixed hit hx) his

theorem has_closeAt (h : set.Has i d ahead) (a : Analysis) (place : Nat) :
    (closeAt a set place).Has i d ahead := by
  unfold closeAt
  split
  · exact h
  · exact (has_addAll _ _ _ _ _).mpr (Or.inl h)

theorem has_close (ha : a.Faithful) (h : set.Tidy) :
    (set.close a).Has i d ahead ↔ Closure a set.Has i d ahead := by
  constructor
  · exact close_induct
      (P := fun s : ItemSet => ∀ i d ahead, s.Has i d ahead → Closure a set.Has i d ahead)
      (fun _ place hs => closure_of_has_closeAt ha hs place) (fun _ _ _ hs => .base hs) i d ahead
  · intro hc
    induction hc with
    | @base i d ahead hk =>
      exact close_induct (P := fun s : ItemSet => s.Has i d ahead)
        (fun _ place hs => has_closeAt hs a place) hk
    | predict _ hp ih => exact has_of_predicts ha (saturates_close ha h).fixed ih hp

end ItemSet

end CanonicalLR

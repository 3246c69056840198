import CanonicalLR.Analysis
import CanonicalLR.Proofs.Derivation.Starts
import CanonicalLR.Proofs.Saturate
import CanonicalLR.Proofs.Symbol.Registry
import CanonicalLR.Proofs.Symbol.Set
import Mathlib.Algebra.GroupWithZero.Nat
import Mathlib.Algebra.Order.BigOperators.Group.List
import Mathlib.Algebra.Order.Group.Nat

/-! The fixed point of the passes over the rules is exact: the nullable symbols are those that
derive the empty word, and FIRST sets hold the terminals that can come first. -/

namespace CanonicalLR

structure RuleTable (r : Registry) (rules : List Rule) : Prop where
  registry : r.Sound
  registered : ∀ rule ∈ rules, r.Registered rule.lhs
  nonterminal : ∀ rule ∈ rules, r.isTerminal rule.lhs = false

namespace FirstFacts

variable {r : Registry} {rules : List Rule} {f : FirstFacts}

theorem firstOf_mergeFirst (f : FirstFacts) (lhs s : SymbolId) (set : SymbolSet) :
    (f.mergeFirst lhs set).firstOf s =
      if s = lhs ∧ s.val < f.first.length then (f.firstOf s).merge set else f.firstOf s := by
  simp only [firstOf, mergeFirst, List.getD_eq_getElem?_getD, List.getElem?_modify]
  by_cases hs : s = lhs
  · subst hs
    by_cases hlt : s.val < f.first.length
    · simp [hlt]
    · simp [hlt]
  · have hv : ¬ lhs.val = s.val := fun he => hs (Fin.ext he.symm)
    simp [hs, hv]

theorem firstOf_initial (r : Registry) (s t : SymbolId) :
    ((initial r).firstOf s).contains t = (decide (t = s) && r.isTerminal s) := by
  have hall : SymbolId.all[s.val]? = some s := by simp [SymbolId.all]
  simp only [firstOf, initial, List.getD_eq_getElem?_getD, List.getElem?_map, Registry.toList,
    Registry.isTerminal, Registry.get?]
  cases hs : r.symbols[s.val]? with
  | none =>
    have hz : (SymbolId.all.zip r.symbols)[s.val]? = none := by
      rw [List.getElem?_eq_none_iff] at hs ⊢
      rw [List.length_zip]
      omega
    simp [hz]
  | some sym =>
    have hz : (SymbolId.all.zip r.symbols)[s.val]? = some (s, sym) :=
      List.getElem?_zip_eq_some.mpr ⟨hall, hs⟩
    cases ht : sym.isTerminal <;> simp [hz, ht]

theorem length_initial (h : r.Sound) : (initial r).first.length = r.size := by
  have := h.size_le
  simp only [initial, Registry.toList, List.length_map, List.length_zip, SymbolId.all,
    List.length_finRange, Registry.size] at this ⊢
  omega

/-! A pass adds only what is derived. -/

structure Derived (r : Registry) (rules : List Rule) (f : FirstFacts) : Prop where
  nullable : ∀ s, f.nullable.contains s = true → Vanishes r rules [s]
  first : ∀ s t, (f.firstOf s).contains t = true → Starts r rules t [s]

theorem Derived.absorb {rule : Rule} (hr : rule ∈ rules) {before ids : List SymbolId}
    (hrhs : rule.rhs = before ++ ids) (hb : Vanishes r rules before) (h : Derived r rules f) :
    Derived r rules (absorb rule.lhs ids f) := by
  induction ids generalizing before f with
  | nil =>
    have hv : Vanishes r rules rule.rhs := by simpa [hrhs] using hb
    refine ⟨fun s hs => ?_, h.first⟩
    simp only [FirstFacts.absorb, SymbolSet.contains_insert, Bool.or_eq_true,
      decide_eq_true_eq] at hs
    rcases hs with hs | rfl
    · exact h.nullable s hs
    · exact .of_rule hr hv
  | cons s ids ih =>
    have hm : Derived r rules (f.mergeFirst rule.lhs (f.firstOf s)) := by
      refine ⟨h.nullable, fun x t hx => ?_⟩
      rw [firstOf_mergeFirst] at hx
      split at hx
      · rename_i hc
        rw [SymbolSet.contains_merge, Bool.or_eq_true] at hx
        rcases hx with hx | hx
        · exact h.first x t hx
        · have hs := ((h.first s t hx).append_right ids).append_left hb
          rw [List.singleton_append, ← hrhs] at hs
          exact hc.1 ▸ .rule hr hs
      · exact h.first x t hx
    simp only [FirstFacts.absorb]
    split
    · rename_i hn
      have hv := hb.append (h.nullable s hn)
      exact ih (by simpa using hrhs) hv hm
    · exact hm

theorem Derived.pass (h : Derived r rules f) : Derived r rules (pass rules f) :=
  List.foldlRecOn _ _ h fun _ hf _ hr =>
    hf.absorb hr (List.nil_append _).symm .nil

theorem derived_of (r : Registry) (rules : List Rule) : Derived r rules (of r rules) := by
  refine saturate_induct (fun _ => Derived.pass) _ ⟨fun s hs => ?_, fun s t ht => ?_⟩
  · simp [initial] at hs
  · simp only [firstOf_initial, Bool.and_eq_true, decide_eq_true_eq] at ht
    obtain ⟨rfl, ht⟩ := ht
    exact .head ht

/-! The number of facts bounds the number of passes. -/

def count (f : FirstFacts) : Nat := f.nullable.size + (f.first.map SymbolSet.size).sum

theorem modify_eq_or_sum_lt (sets : List SymbolSet) (i : Nat) (set : SymbolSet) :
    sets.modify i (·.merge set) = sets ∨
      (sets.map SymbolSet.size).sum < ((sets.modify i (·.merge set)).map SymbolSet.size).sum := by
  induction sets generalizing i with
  | nil => simp
  | cons first sets ih =>
    cases i with
    | zero =>
      rcases first.merge_eq_or_size_lt set with he | hlt
      · simp [he]
      · simpa using Or.inr hlt
    | succ i =>
      rcases ih i with he | hlt
      · simp [he]
      · simpa using Or.inr hlt

theorem advances_mergeFirst (f : FirstFacts) (lhs : SymbolId) (set : SymbolSet) :
    Advances count f (f.mergeFirst lhs set) := by
  rcases modify_eq_or_sum_lt f.first lhs.val set with he | hlt
  · left
    simp [mergeFirst, he]
  · right
    simpa [count, mergeFirst] using hlt

theorem advances_absorb (lhs : SymbolId) (ids : List SymbolId) (f : FirstFacts) :
    Advances count f (absorb lhs ids f) := by
  induction ids generalizing f with
  | nil =>
    rcases f.nullable.insert_eq_or_size_lt lhs with he | hlt
    · left
      simp [absorb, he]
    · right
      simpa [count, absorb] using hlt
  | cons s ids ih =>
    simp only [absorb]
    split
    · exact (advances_mergeFirst f lhs _).trans (ih _)
    · exact advances_mergeFirst f lhs _

theorem advances_pass (rules : List Rule) (f : FirstFacts) : Advances count f (pass rules f) :=
  .foldl (f := fun f rule => absorb rule.lhs rule.rhs f)
    (fun f rule => advances_absorb rule.lhs rule.rhs f) rules f

structure Within (r : Registry) (f : FirstFacts) : Prop where
  length : f.first.length = r.size
  nullable : ∀ s, f.nullable.contains s = true → r.Registered s
  terminal : ∀ s, r.isTerminal s = true → (f.firstOf s).contains s = true

theorem Within.mergeFirst (h : Within r f) (lhs : SymbolId) (set : SymbolSet) :
    Within r (f.mergeFirst lhs set) := by
  refine ⟨by simpa [FirstFacts.mergeFirst] using h.length, h.nullable, fun s hs => ?_⟩
  rw [firstOf_mergeFirst]
  split
  · simp [h.terminal s hs]
  · exact h.terminal s hs

theorem Within.absorb {lhs : SymbolId} (hlhs : r.Registered lhs) (ids : List SymbolId)
    (h : Within r f) : Within r (absorb lhs ids f) := by
  induction ids generalizing f with
  | nil =>
    refine ⟨h.length, fun s hs => ?_, h.terminal⟩
    simp only [FirstFacts.absorb, SymbolSet.contains_insert, Bool.or_eq_true,
      decide_eq_true_eq] at hs
    rcases hs with hs | rfl
    · exact h.nullable s hs
    · exact hlhs
  | cons s ids ih =>
    simp only [FirstFacts.absorb]
    split
    · exact ih (h.mergeFirst lhs _)
    · exact h.mergeFirst lhs _

theorem Within.pass (hrules : ∀ rule ∈ rules, r.Registered rule.lhs) (h : Within r f) :
    Within r (pass rules f) :=
  List.foldlRecOn _ _ h fun _ hf rule hr => hf.absorb (hrules rule hr) rule.rhs

theorem within_initial (h : r.Sound) : Within r (initial r) where
  length := length_initial h
  nullable := fun s hs => by simp [initial] at hs
  terminal := fun s hs => by simp [firstOf_initial, hs]

theorem Within.count_le (h : Within r f) : f.count ≤ r.size + r.size * maxSymbols := by
  have hn : f.nullable.size ≤ r.size := by
    rw [SymbolSet.size_eq_card, ← Finset.card_range r.size]
    refine Finset.card_le_card_of_injOn Fin.val (fun s hs => ?_) Fin.val_injective.injOn
    have hr : s.val < r.size := h.nullable s (by simpa using hs)
    simpa using hr
  have hf : (f.first.map SymbolSet.size).sum ≤ r.size * maxSymbols := by
    have hh := List.sum_le_card_nsmul (f.first.map SymbolSet.size) maxSymbols
      (by simpa using fun set _ => set.size_le)
    simpa [h.length] using hh
  exact Nat.add_le_add hn hf

theorem within_of (h : RuleTable r rules) : Within r (of r rules) :=
  saturate_induct (P := Within r) (fun _ hf => hf.pass h.registered) _ (within_initial h.registry)

theorem saturates_of (h : RuleTable r rules) : Saturates (pass rules) (initial r) (of r rules) :=
  saturates_saturate (P := Within r) (fun _ hf => hf.pass h.registered) (advances_pass rules)
    (fun _ hf => hf.count_le) (within_initial h.registry) (by simp only [rounds]; omega)

/-- Where absorbing changes nothing, neither do its steps: none of them takes anything back. -/
theorem eq_of_absorb_cons {lhs s : SymbolId} {ids : List SymbolId}
    (h : absorb lhs (s :: ids) f = f) : f.mergeFirst lhs (f.firstOf s) = f ∧
      (f.nullable.contains s = true → absorb lhs ids f = f) := by
  have hback : Advances count (f.mergeFirst lhs (f.firstOf s)) f := by
    rw [absorb] at h
    split at h
    · have hadvances := advances_absorb lhs ids (f.mergeFirst lhs (f.firstOf s))
      rwa [h] at hadvances
    · exact Or.inl h
  have hmerged := hback.antisymm (advances_mergeFirst f lhs (f.firstOf s))
  refine ⟨hmerged, fun hs => ?_⟩
  rw [absorb, hmerged] at h
  exact (if_pos hs).symm.trans h

end FirstFacts

/-- A right-hand side before and behind its dot. -/
theorem Rule.rhs_split {rule : Rule} {d : Nat} {s : SymbolId} (h : rule.rhs[d]? = some s) :
    rule.rhs = rule.rhs.take d ++ s :: rule.rhs.drop (d + 1) := by
  obtain ⟨hd, rfl⟩ := List.getElem?_eq_some_iff.mp h
  rw [List.cons_getElem_drop_succ, List.take_append_drop]

namespace Analysis

variable {r : Registry} {rules : List Rule}

/-! At the fixed point every rule is accounted for. -/

structure Closed (a : Analysis) (lhs : SymbolId) (ids : List SymbolId) : Prop where
  nullable : a.allNullable ids = true → a.isNullable lhs = true
  first : ∀ t, (a.firstOfAll ids).contains t = true → (a.first lhs).contains t = true

theorem closed_of_absorb_eq {a : Analysis} {lhs : SymbolId} (hlhs : lhs.val < a.facts.first.length)
    {ids : List SymbolId} (h : FirstFacts.absorb lhs ids a.facts = a.facts) :
    a.Closed lhs ids := by
  induction ids with
  | nil =>
    refine ⟨fun _ => ?_, fun t ht => by simp [firstOfAll] at ht⟩
    rw [isNullable, ← h]
    simp [FirstFacts.absorb]
  | cons s ids ih =>
    obtain ⟨hmerged, habsorb⟩ := FirstFacts.eq_of_absorb_cons h
    have hfirst : ∀ t, (a.first s).contains t = true → (a.first lhs).contains t = true := by
      intro t ht
      rw [first, ← hmerged, FirstFacts.firstOf_mergeFirst, if_pos ⟨rfl, hlhs⟩,
        SymbolSet.contains_merge, Bool.or_eq_true]
      exact Or.inr ht
    by_cases hn : a.isNullable s = true
    · have hh := ih (habsorb hn)
      refine ⟨fun hall => hh.nullable ?_, fun t ht => ?_⟩
      · simp only [allNullable, List.all_cons, Bool.and_eq_true] at hall
        exact hall.2
      · simp only [firstOfAll, hn, if_true, SymbolSet.contains_merge, Bool.or_eq_true] at ht
        exact ht.elim (hfirst t) (hh.first t)
    · refine ⟨fun hall => absurd ?_ hn, fun t ht => hfirst t ?_⟩
      · simp only [allNullable, List.all_cons, Bool.and_eq_true] at hall
        exact hall.1
      · simpa only [firstOfAll, if_neg hn] using ht

theorem closed_of (h : RuleTable r rules) {rule : Rule} (hr : rule ∈ rules) :
    (of r rules).Closed rule.lhs rule.rhs := by
  apply closed_of_absorb_eq
  · have hlen : (of r rules).facts.first.length = r.size := (FirstFacts.within_of h).length
    rw [hlen]
    exact h.registered rule hr
  · have hfold : rules.foldl (fun f rule => FirstFacts.absorb rule.lhs rule.rhs f)
        (FirstFacts.of r rules) = FirstFacts.of r rules := (FirstFacts.saturates_of h).fixed
    exact Advances.of_foldl_eq
      (fun f rule => FirstFacts.advances_absorb rule.lhs rule.rhs f) hfold rule hr

theorem isNullable_of_parses (h : RuleTable r rules) {trees : List Tree}
    {roots word : List SymbolId} (hp : Parses r rules trees roots word) (hw : word = []) :
    (of r rules).allNullable roots = true := by
  induction hp with
  | nil => rfl
  | leaf => cases hw
  | node hr _ _ ihc ih =>
    obtain ⟨hb, hrest⟩ := List.append_eq_nil_iff.mp hw
    simp only [allNullable, List.all_cons, Bool.and_eq_true]
    exact ⟨(closed_of h hr).nullable (ihc hb), ih hrest⟩

theorem allNullable_of (h : RuleTable r rules) (ids : List SymbolId) :
    (of r rules).allNullable ids = true ↔ Vanishes r rules ids := by
  constructor
  · intro hn
    induction ids with
    | nil => exact .nil
    | cons s ids ih =>
      simp only [allNullable, List.all_cons, Bool.and_eq_true] at hn
      exact vanishes_cons_iff.mpr ⟨(FirstFacts.derived_of r rules).nullable s hn.1, ih hn.2⟩
  · rintro ⟨trees, ht⟩
    exact isNullable_of_parses h ht rfl

theorem isNullable_of (h : RuleTable r rules) (s : SymbolId) :
    (of r rules).isNullable s = true ↔ Vanishes r rules [s] := by
  simpa [allNullable] using allNullable_of h [s]

theorem contains_firstOfAll_of (h : RuleTable r rules) (t : SymbolId) (ids : List SymbolId) :
    ((of r rules).firstOfAll ids).contains t = true ↔ Starts r rules t ids := by
  constructor
  · intro ht
    induction ids with
    | nil => simp [firstOfAll] at ht
    | cons s ids ih =>
      have hs : ((of r rules).first s).contains t = true → Starts r rules t (s :: ids) :=
        fun hh => ((FirstFacts.derived_of r rules).first s t hh).append_right ids
      simp only [firstOfAll] at ht
      split at ht
      · rename_i hn
        rw [SymbolSet.contains_merge, Bool.or_eq_true] at ht
        exact ht.elim hs fun hh => .skip ((isNullable_of h s).mp hn) (ih hh)
      · exact hs ht
  · intro hs
    induction hs with
    | head ht =>
      have hf := (FirstFacts.within_of h).terminal t ht
      simp only [firstOfAll]
      split
      · rw [SymbolSet.contains_merge, Bool.or_eq_true]
        exact Or.inl hf
      · exact hf
    | rule hr _ ih =>
      have hf := (closed_of h hr).first t ih
      simp only [firstOfAll]
      split
      · rw [SymbolSet.contains_merge, Bool.or_eq_true]
        exact Or.inl hf
      · exact hf
    | skip hv _ ih => simp [firstOfAll, (isNullable_of h _).mpr hv, ih]

structure Faithful (a : Analysis) : Prop where
  table : RuleTable a.symbols a.rules
  facts : a.facts = .of a.symbols a.rules
  index : ∀ (j : Nat) (rule : Rule), a.rules[j]? = some rule → rule.index = j

variable {a : Analysis}

theorem Faithful.eq_of (ha : a.Faithful) : a = .of a.symbols a.rules := by
  cases a
  simpa [of] using ha.facts

theorem Faithful.allNullable_iff (ha : a.Faithful) (ids : List SymbolId) :
    a.allNullable ids = true ↔ Vanishes a.symbols a.rules ids := by
  have h := allNullable_of ha.table ids
  rwa [← ha.eq_of] at h

theorem Faithful.contains_firstOfAll_iff (ha : a.Faithful) (t : SymbolId) (ids : List SymbolId) :
    (a.firstOfAll ids).contains t = true ↔ Starts a.symbols a.rules t ids := by
  have h := contains_firstOfAll_of ha.table t ids
  rwa [← ha.eq_of] at h

theorem rhs_eq {j : Nat} {rule : Rule} (h : a.rules[j]? = some rule) : a.rhs j = rule.rhs := by
  simp [rhs, h]

theorem exists_rule_of_mem {j : Nat} {s : SymbolId} (h : s ∈ a.rhs j) :
    ∃ rule, a.rules[j]? = some rule ∧ s ∈ rule.rhs := by
  cases hj : a.rules[j]? with
  | none => simp [rhs, hj] at h
  | some rule => exact ⟨rule, rfl, rhs_eq hj ▸ h⟩

theorem Faithful.nonterminal (ha : a.Faithful) {j : Nat} {rule : Rule}
    (h : a.rules[j]? = some rule) : a.symbols.isTerminal rule.lhs = false :=
  ha.table.nonterminal rule (List.mem_of_getElem? h)

end Analysis

end CanonicalLR

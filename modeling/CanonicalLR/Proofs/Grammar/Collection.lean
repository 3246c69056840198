import CanonicalLR.Proofs.Automaton.Reaches
import Mathlib.Algebra.BigOperators.Group.List.Basic
import Mathlib.Data.Finset.Powerset
import Mathlib.Data.Finset.Prod
import Mathlib.Data.Fintype.Option

/-! The collection of item sets. There are fewer sets than the exploration may take steps, so in the
end every set is explored, and every sequence that some item is reached with leads to a member. -/

namespace CanonicalLR

variable {a : Analysis} {path : List SymbolId} {i d : Nat} {ahead : Option SymbolId}
  {s : SymbolId}

theorem ItemSet.contains_shiftSymbols (set : ItemSet) (a : Analysis) (s : SymbolId) :
    (set.shiftSymbols a).contains s = true ↔
      ∃ i d, set.Has i d none ∧ (a.rhs i)[d]? = some s := by
  simp only [shiftSymbols, SymbolSet.contains_ofList, decide_eq_true_eq, List.mem_filterMap,
    Item.next?]
  constructor
  · rintro ⟨it, hit, hs⟩
    exact ⟨it.rule, it.dot, ⟨it, hit, rfl, rfl, fun _ h => by cases h⟩, hs⟩
  · rintro ⟨_, _, ⟨it, hit, rfl, rfl, -⟩, hs⟩
    exact ⟨it, hit, hs⟩

theorem ItemSet.Spells.contains_shiftSymbols {set : ItemSet} (h : set.Spells a path) :
    (set.shiftSymbols a).contains s = true ↔
      ∃ i d ahead, Reaches a path i d ahead ∧ (a.rhs i)[d]? = some s := by
  rw [ItemSet.contains_shiftSymbols]
  constructor
  · rintro ⟨i, d, hhas, hs⟩
    exact ⟨i, d, none, (h _ _ _).mp hhas, hs⟩
  · rintro ⟨i, d, ahead, hr, hs⟩
    exact ⟨i, d, (h _ _ _).mpr hr.none, hs⟩

namespace Collection

variable {members : List Member}

/-- Members are sets that some sequence leads to, and no two of them are the same. -/
structure Gathered (a : Analysis) (members : List Member) : Prop where
  core : ∀ m ∈ members, m.core = m.set.core
  tidy : ∀ m ∈ members, m.set.Tidy
  spells : ∀ m ∈ members, ∃ path, m.set.Spells a path
  distinct : members.Pairwise fun m n => m.set.same n.set = false

theorem getElem?_of_grown {members more : List Member} (hp : members <+: more) {k : Nat}
    {m : Member} (hm : members[k]? = some m) : more[k]? = some m := by
  obtain ⟨rest, rfl⟩ := hp
  rw [List.getElem?_append_left (List.getElem?_eq_some_iff.mp hm).1]
  exact hm

theorem Gathered.locate (h : Gathered a members) {set : ItemSet} (ht : set.Tidy)
    (hs : set.Spells a path) :
    Gathered a (locate members set).2 ∧ members <+: (locate members set).2 ∧
      ∃ m, (locate members set).2[(locate members set).1]? = some m ∧ m.set.same set = true := by
  have hself : set.same set = true := (ht.same_iff ht).mpr fun _ _ _ => Iff.rfl
  cases hf : find? members (Member.of set) with
  | some k =>
    simp only [Collection.locate, hf]
    obtain ⟨hlt, hk, -⟩ := List.findIdx?_eq_some_iff_getElem.mp hf
    simp only [Bool.and_eq_true] at hk
    exact ⟨h, List.prefix_refl _, members[k], List.getElem?_eq_getElem hlt, hk.2⟩
  | none =>
    simp only [Collection.locate, hf]
    have hnew : ∀ m ∈ members, m.set.same set = false := by
      intro m hm
      by_contra hsame
      have hsame : m.set.same set = true := by simpa using hsame
      have hcore : m.core = set.core := by rw [h.core m hm, (h.tidy m hm).core_eq hsame]
      have hno := List.findIdx?_eq_none_iff.mp hf m hm
      simp [Member.of, hcore, hsame] at hno
    refine ⟨⟨?_, ?_, ?_, ?_⟩, List.prefix_append _ _, Member.of set, by simp, hself⟩
    · simpa [or_imp, forall_and] using ⟨h.core, rfl⟩
    · simpa [or_imp, forall_and] using ⟨h.tidy, ht⟩
    · simpa [or_imp, forall_and] using ⟨h.spells, path, hs⟩
    · exact List.pairwise_append.mpr ⟨h.distinct, by simp, by simpa [Member.of] using hnew⟩

structure Followed (a : Analysis) (set : ItemSet) (ids : List SymbolId) (members : List Member)
    (shifts : SymbolMap Nat) : Prop where
  hit : ∀ s ∈ ids, ∃ k m, shifts.get? s = some k ∧ members[k]? = some m ∧
    m.set.same (set.goto a s) = true
  miss : ∀ s ∉ ids, shifts.get? s = none

theorem Followed.of_grown {set : ItemSet} {ids : List SymbolId} {shifts : SymbolMap Nat}
    (h : Followed a set ids members shifts) {more : List Member} (hp : members <+: more) :
    Followed a set ids more shifts := by
  refine ⟨fun s hs => ?_, h.miss⟩
  obtain ⟨k, m, hk, hm, hsame⟩ := h.hit s hs
  exact ⟨k, m, hk, getElem?_of_grown hp hm, hsame⟩

theorem Gathered.follow (ha : a.Faithful) (h : Gathered a members) {set : ItemSet}
    (hs : set.Spells a path) (ids : List SymbolId) :
    Gathered a (ids.foldl (follow a set) (members, {})).1 ∧
      members <+: (ids.foldl (follow a set) (members, {})).1 ∧
      Followed a set ids (ids.foldl (follow a set) (members, {})).1
        (ids.foldl (follow a set) (members, {})).2 := by
  induction ids using List.reverseRecOn with
  | nil => exact ⟨h, List.prefix_refl _, by simp, fun s _ => rfl⟩
  | append_singleton ids s ih =>
    rw [List.foldl_append, List.foldl_cons, List.foldl_nil]
    generalize ids.foldl (Collection.follow a set) (members, {}) = found at ih
    obtain ⟨hg, hp, hfollowed⟩ := ih
    obtain ⟨hg', hp', m, hm, hsame⟩ := hg.locate (ItemSet.tidy_goto set a s) (hs.goto ha s)
    have hfollowed' := hfollowed.of_grown hp'
    refine ⟨hg', hp.trans hp', fun t ht => ?_, fun t ht => ?_⟩
    · by_cases he : t = s
      · subst he
        exact ⟨_, m, by simp [Collection.follow], hm, hsame⟩
      · have hmem : t ∈ ids := by simpa [he] using ht
        obtain ⟨k, m', hk, hm', hsame'⟩ := hfollowed'.hit t hmem
        exact ⟨k, m', by simpa [Collection.follow, he] using hk, hm', hsame'⟩
    · have hne : ¬ (t ∈ ids ∨ t = s) := by simpa using ht
      push Not at hne
      have hmiss := hfollowed.miss t hne.1
      simpa [Collection.follow, hne.2] using hmiss

/-! The number of sets. -/

def dots (a : Analysis) : List (Nat × Nat) :=
  (List.range a.rules.length).flatMap fun i =>
    (List.range ((a.rhs i).length + 1)).map fun d => (i, d)

theorem length_dots (a : Analysis) : (dots a).length = places a := by
  have hmap : (List.range a.rules.length).map (fun i => (a.rhs i).length + 1) =
      a.rules.map fun rule => rule.rhs.length + 1 := by
    apply List.ext_getElem (by simp)
    intro i h₁ h₂
    have hlt : i < a.rules.length := by simpa using h₁
    simp [Analysis.rhs, List.getElem?_eq_getElem hlt]
  have hsum : ∀ rules : List Rule, (rules.map fun rule => rule.rhs.length + 1).sum =
      rules.foldr (fun rule total => rule.rhs.length + 1 + total) 0 := by
    intro rules
    induction rules with
    | nil => rfl
    | cons rule rules ih => simp [ih]
  rw [dots, List.length_flatMap]
  simp only [List.length_map, List.length_range, hmap]
  exact hsum a.rules

open Classical in
noncomputable def held (a : Analysis) (set : ItemSet) : Finset ((Nat × Nat) × Option SymbolId) :=
  ((dots a).toFinset ×ˢ Finset.univ).filter fun p => set.Has p.1.1 p.1.2 p.2

open Classical in
theorem held_subset (a : Analysis) (set : ItemSet) :
    held a set ⊆ (dots a).toFinset ×ˢ Finset.univ :=
  Finset.filter_subset _ _

theorem mem_held (hpos : 0 < a.rules.length) {set : ItemSet} (h : set.Spells a path) :
    ((i, d), ahead) ∈ held a set ↔ set.Has i d ahead := by
  have hdots : (i, d) ∈ dots a ↔ i < a.rules.length ∧ d ≤ (a.rhs i).length := by
    rw [← Nat.lt_succ_iff]
    simp [dots]
  simp only [held, Finset.mem_filter, Finset.mem_product, List.mem_toFinset, Finset.mem_univ,
    and_true, hdots]
  constructor
  · exact fun hh => hh.2
  · exact fun hh => ⟨((h _ _ _).mp hh).within hpos, hh⟩

theorem Gathered.length_le (hpos : 0 < a.rules.length) (h : Gathered a members) :
    members.length ≤ bound a := by
  have hnodup : (members.map fun m => held a m.set).Nodup := by
    refine List.pairwise_map.mpr (h.distinct.imp_of_mem fun {m n} hm hn hdiff heq => ?_)
    obtain ⟨_, hsm⟩ := h.spells m hm
    obtain ⟨_, hsn⟩ := h.spells n hn
    have hsame : m.set.same n.set = true := by
      refine ((h.tidy m hm).same_iff (h.tidy n hn)).mpr fun i d ahead => ?_
      rw [← mem_held hpos hsm, ← mem_held hpos hsn, heq]
    rw [hdiff] at hsame
    cases hsame
  let all : Finset ((Nat × Nat) × Option SymbolId) := (dots a).toFinset ×ˢ Finset.univ
  have hsub : (members.map fun m => held a m.set).toFinset ⊆ all.powerset := by
    intro x hx
    obtain ⟨m, -, rfl⟩ := List.mem_map.mp (List.mem_toFinset.mp hx)
    exact Finset.mem_powerset.mpr (held_subset a m.set)
  have hall : all.card ≤ (maxSymbols + 1) * places a := by
    have hle := (dots a).toFinset_card_le
    rw [length_dots] at hle
    rw [Finset.card_product, Finset.card_univ, Fintype.card_option, Fintype.card_fin, Nat.mul_comm]
    exact Nat.mul_le_mul_left _ hle
  have hcard := Finset.card_le_card hsub
  rw [List.toFinset_card_of_nodup hnodup, List.length_map, Finset.card_powerset] at hcard
  exact hcard.trans (Nat.pow_le_pow_right (by omega) hall)

/-! The exploration. -/

structure Explored (a : Analysis) (c : Collection) : Prop where
  gathered : Gathered a c.members
  first : ∃ m, c.members[0]? = some m ∧ m.set = seed a
  within : c.shifts.length ≤ c.members.length
  followed : ∀ (j : Nat) (m : Member) (shifts : SymbolMap Nat), c.members[j]? = some m →
    c.shifts[j]? = some shifts → Followed a m.set (m.set.shiftSymbols a).toList c.members shifts

theorem explored_start (ha : a.Faithful) : Explored a ⟨[.of (seed a)], []⟩ where
  gathered :=
    { core := by simp [Member.of]
      tidy := by simpa [Member.of] using ItemSet.tidy_seed a
      spells := by simpa [Member.of] using ⟨[], ItemSet.spells_seed ha⟩
      distinct := by simp }
  first := ⟨_, rfl, rfl⟩
  within := by simp
  followed := by simp

theorem Explored.explore (ha : a.Faithful) {c : Collection} (h : Explored a c) {m : Member}
    (hm : c.members[c.shifts.length]? = some m) : Explored a (c.explore a m.set) := by
  obtain ⟨path, hpath⟩ := h.gathered.spells m (List.mem_of_getElem? hm)
  obtain ⟨hg, hp, hfollowed⟩ :=
    h.gathered.follow ha hpath (m.set.shiftSymbols a).toList
  obtain ⟨first, hfirst, hseed⟩ := h.first
  have hlt := (List.getElem?_eq_some_iff.mp hm).1
  refine ⟨hg, ⟨first, getElem?_of_grown hp hfirst, hseed⟩, ?_, fun j m' shifts hj hs => ?_⟩
  · have hle := hp.length_le
    simp only [Collection.explore, List.length_append, List.length_singleton]
    omega
  · change (c.shifts ++ [_])[j]? = some shifts at hs
    by_cases hj' : j < c.shifts.length
    · rw [List.getElem?_append_left hj'] at hs
      have hlt' : j < c.members.length := by omega
      have hold : c.members[j]? = some m' := by
        have hget := getElem?_of_grown hp (List.getElem?_eq_getElem hlt')
        rw [← hj, List.getElem?_eq_getElem hlt']
        exact hget.symm
      exact (h.followed j m' shifts hold hs).of_grown hp
    · have hlast := (List.getElem?_eq_some_iff.mp hs).1
      rw [List.length_append, List.length_singleton] at hlast
      have he : j = c.shifts.length := by omega
      subst he
      rw [List.getElem?_concat_length, Option.some.injEq] at hs
      have hmm : m' = m := by
        have hj'' : _ = some m := getElem?_of_grown hp hm
        exact Option.some.inj (hj.symm.trans hj'')
      subst hmm hs
      exact hfollowed

theorem Explored.exploreAll (ha : a.Faithful) (hpos : 0 < a.rules.length) (fuel : Nat)
    {c : Collection} (h : Explored a c) (hfuel : bound a ≤ c.shifts.length + fuel) :
    Explored a (exploreAll a fuel c) ∧
      (exploreAll a fuel c).shifts.length = (exploreAll a fuel c).members.length := by
  induction fuel generalizing c with
  | zero =>
    have hle := h.gathered.length_le hpos
    have hwithin := h.within
    refine ⟨h, ?_⟩
    show c.shifts.length = c.members.length
    omega
  | succ fuel ih =>
    simp only [Collection.exploreAll]
    cases hm : c.members[c.shifts.length]? with
    | none => exact ⟨h, Nat.le_antisymm h.within (List.getElem?_eq_none_iff.mp hm)⟩
    | some m =>
      refine ih (h.explore ha hm) ?_
      simp only [Collection.explore, List.length_append, List.length_singleton]
      omega

theorem explored_of (ha : a.Faithful) (hpos : 0 < a.rules.length) :
    Explored a (of a) ∧ (of a).shifts.length = (of a).members.length :=
  (explored_start ha).exploreAll ha hpos _ (Nat.le_add_left _ _)

/-! What is kept while sets join the members holds of all of them in the end. -/

theorem prefix_locate (members : List Member) (set : ItemSet) : members <+: (locate members set).2 := by
  simp only [locate]
  split
  · exact List.prefix_refl _
  · exact List.prefix_append _ _

/-- The first member is there from the start, and every other set comes after a member over a symbol
that can be shifted there. -/
theorem members_induct {P : List Member → Prop} (hseed : P [.of (seed a)])
    (hlocate : ∀ (members : List Member) (j : Nat) (m : Member) (s : SymbolId), P members →
      members[j]? = some m → (m.set.shiftSymbols a).contains s = true →
      P (locate members (m.set.goto a s)).2) : P (of a).members := by
  have hfollow : ∀ (j : Nat) (m : Member) (ids : List SymbolId)
      (found : List Member × SymbolMap Nat),
      (∀ s ∈ ids, (m.set.shiftSymbols a).contains s = true) → P found.1 → found.1[j]? = some m →
      P (ids.foldl (follow a m.set) found).1 := by
    intro j m ids
    induction ids with
    | nil => exact fun _ _ h _ => h
    | cons s ids ih =>
      intro found hids hfound hj
      obtain ⟨hs, hids⟩ := List.forall_mem_cons.mp hids
      exact ih _ hids (hlocate found.1 j m s hfound hj hs)
        (getElem?_of_grown (prefix_locate found.1 _) hj)
  have hexplore : ∀ (fuel : Nat) (c : Collection), P c.members → P (exploreAll a fuel c).members := by
    intro fuel
    induction fuel with
    | zero => exact fun _ h => h
    | succ fuel ih =>
      intro c hc
      rw [exploreAll]
      split
      · exact hc
      · next m hm =>
        exact ih _ (hfollow _ m _ _ (fun s hs => SymbolSet.mem_toList.mp hs) hc hm)
  exact hexplore _ _ hseed

/-- What holds of the first set, and of the next one with every symbol that can be shifted, holds of
every member. -/
theorem induct {P : ItemSet → Prop} (hseed : P (seed a))
    (hgoto : ∀ set s, P set → (set.shiftSymbols a).contains s = true → P (set.goto a s)) :
    ∀ m ∈ (of a).members, P m.set := by
  refine members_induct (P := fun members => ∀ m ∈ members, P m.set)
    (by simpa [Member.of] using hseed) fun members j m s hall hj hs => ?_
  have hset := hgoto m.set s (hall m (List.mem_of_getElem? hj)) hs
  rw [locate]
  split
  · exact hall
  · exact List.forall_mem_append.mpr ⟨hall, by simpa [Member.of] using hset⟩

theorem exists_has (ha : a.Faithful) :
    ∀ m ∈ (of a).members, ∃ i d ahead, m.set.Has i d ahead := by
  refine induct (P := fun set => ∃ i d ahead, set.Has i d ahead) ?_ fun set s _ hs => ?_
  · refine ⟨0, 0, none, ?_⟩
    exact (ItemSet.spells_seed ha _ _ _).mpr (.start fun _ ht => by cases ht)
  · obtain ⟨i, d, hhas, hdot⟩ := (set.contains_shiftSymbols a s).mp hs
    exact ⟨i, d + 1, none, (ItemSet.has_goto ha set s).mpr
      (.base ((set.has_shiftOver a s i (d + 1) none).mpr ⟨d, rfl, hhas, hdot⟩))⟩

/-! The members a sequence of symbols leads to. -/

/-- The member with this number holds what is reached with the sequence. -/
def At (a : Analysis) (j : Nat) (path : List SymbolId) : Prop :=
  ∃ m, (of a).members[j]? = some m ∧ m.set.Spells a path

theorem at_zero (ha : a.Faithful) (hpos : 0 < a.rules.length) : At a 0 [] := by
  obtain ⟨m, hm, hseed⟩ := (explored_of ha hpos).1.first
  exact ⟨m, hm, hseed ▸ ItemSet.spells_seed ha⟩

theorem At.shifts (ha : a.Faithful) (hpos : 0 < a.rules.length) {j : Nat} (h : At a j path) :
    ∃ m shifts, (of a).members[j]? = some m ∧ (of a).shifts[j]? = some shifts ∧
      m.set.Spells a path ∧ ∀ s,
        (∀ k, shifts.get? s = some k → At a k (path ++ [s])) ∧
        ((shifts.get? s).isSome = true ↔ (m.set.shiftSymbols a).contains s = true) := by
  obtain ⟨hexplored, hlen⟩ := explored_of ha hpos
  obtain ⟨m, hm, hspells⟩ := h
  have hlt := (List.getElem?_eq_some_iff.mp hm).1
  obtain ⟨shifts, hshifts⟩ : ∃ shifts, (of a).shifts[j]? = some shifts :=
    ⟨_, List.getElem?_eq_getElem (by omega)⟩
  have hfollowed := hexplored.followed j m shifts hm hshifts
  refine ⟨m, shifts, hm, hshifts, hspells, fun s => ⟨fun k hk => ?_, fun hs => ?_, fun hs => ?_⟩⟩
  · by_cases hmem : s ∈ (m.set.shiftSymbols a).toList
    · obtain ⟨k', m', hk', hm', hsame⟩ := hfollowed.hit s hmem
      obtain rfl := Option.some.inj (hk.symm.trans hk')
      have htidy := hexplored.gathered.tidy m' (List.mem_of_getElem? hm')
      exact ⟨m', hm', ((hspells.goto ha s).same_iff (ItemSet.tidy_goto _ a s) htidy).mp hsame⟩
    · rw [hfollowed.miss s hmem] at hk
      cases hk
  · by_contra hno
    rw [hfollowed.miss s (by simpa using hno)] at hs
    cases hs
  · obtain ⟨k, -, hk, -⟩ := hfollowed.hit s (SymbolSet.mem_toList.mpr hs)
    simp [hk]

theorem exists_at (ha : a.Faithful) (hpos : 0 < a.rules.length) (h : Reaches a path i d ahead) :
    ∃ j, At a j path := by
  induction path using List.reverseRecOn generalizing i d ahead with
  | nil => exact ⟨0, at_zero ha hpos⟩
  | append_singleton path s ih =>
    obtain ⟨i', d', ahead', hr, hs⟩ := h.exists_of_append_singleton
    obtain ⟨j, hj⟩ := ih hr
    obtain ⟨m, shifts, -, -, hspells, hshifts⟩ := hj.shifts ha hpos
    obtain ⟨hshift, hsome⟩ := hshifts s
    have hcontains := hspells.contains_shiftSymbols.mpr ⟨i', d', ahead', hr, hs⟩
    obtain ⟨k, hk⟩ := Option.isSome_iff_exists.mp (hsome.mpr hcontains)
    exact ⟨k, hshift k hk⟩

end Collection

end CanonicalLR

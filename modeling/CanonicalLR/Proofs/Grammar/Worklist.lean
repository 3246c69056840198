import CanonicalLR.Proofs.Grammar.Resolution

/-! The loop over the item sets. It ends, and the sets it leaves are closed, all different, complete
under the moves over a symbol, and each of them is the next one of a set before it. -/

namespace CanonicalLR

namespace Collection

variable {a : Analysis}

/-- The next set that is left is explored until there is none. -/
inductive Explores (a : Analysis) : Collection → Collection → Prop where
  | done {c : Collection} : c.members[c.shifts.length]? = none → Explores a c c
  | next {c c' : Collection} {m : Member} : c.members[c.shifts.length]? = some m →
      Explores a (c.explore a m.set) c' → Explores a c c'

theorem explores_exploreAll (fuel : Nat) (c : Collection)
    (h : (exploreAll a fuel c).shifts.length = (exploreAll a fuel c).members.length) :
    Explores a c (exploreAll a fuel c) := by
  induction fuel generalizing c with
  | zero => exact .done (List.getElem?_eq_none_iff.mpr (Nat.le_of_eq h.symm))
  | succ fuel ih =>
    simp only [exploreAll] at h ⊢
    cases hm : c.members[c.shifts.length]? with
    | none => exact .done hm
    | some m =>
      rw [hm] at h
      exact .next hm (ih _ h)

theorem explores_of (ha : a.Faithful) (hpos : 0 < a.rules.length) :
    Explores a ⟨[.of (seed a)], []⟩ (of a) :=
  explores_exploreAll _ _ (explored_of ha hpos).2

/-- Every set but the first is the next one of a set before it. -/
def Sprung (a : Analysis) (sets : List ItemSet) : Prop :=
  ∀ (k : Nat) (y : ItemSet), sets[k]? = some y → k ≠ 0 → ∃ j x s, j < k ∧ sets[j]? = some x ∧
    (x.shiftSymbols a).contains s = true ∧ y = x.goto a s

theorem Sprung.append {sets : List ItemSet} (h : Sprung a sets) {j : Nat} {x : ItemSet}
    (hj : sets[j]? = some x) {s : SymbolId} (hs : (x.shiftSymbols a).contains s = true) :
    Sprung a (sets ++ [x.goto a s]) := by
  have hlt := (List.getElem?_eq_some_iff.mp hj).1
  intro k y hk hne
  by_cases hold : k < sets.length
  · rw [List.getElem?_append_left hold] at hk
    obtain ⟨i, z, t, hi, hz, ht, rfl⟩ := h k y hk hne
    exact ⟨i, z, t, hi, by rw [List.getElem?_append_left (by omega), hz], ht, rfl⟩
  · have hk' := (List.getElem?_eq_some_iff.mp hk).1
    rw [List.length_append, List.length_singleton] at hk'
    obtain rfl : k = sets.length := by omega
    rw [List.getElem?_concat_length, Option.some.injEq] at hk
    exact ⟨j, x, s, hlt, by rw [List.getElem?_append_left hlt, hj], hs, hk.symm⟩

theorem sprung_of (a : Analysis) : Sprung a ((of a).members.map (·.set)) := by
  refine members_induct (P := fun members => Sprung a (members.map (·.set))) ?_ ?_
  · intro k y hk hne
    have hlt := (List.getElem?_eq_some_iff.mp hk).1
    rw [List.length_map, List.length_singleton] at hlt
    omega
  · intro members j m s hsprung hj hs
    rw [locate]
    split
    · exact hsprung
    · rw [List.map_append]
      exact hsprung.append (by rw [List.getElem?_map, hj, Option.map_some]) hs

/-- The sets of the canonical automaton, each once and in the order in which they are reached. -/
structure Canonical (a : Analysis) (sets : List ItemSet) : Prop where
  first : sets[0]? = some ((ItemSet.ofList [⟨0, 0, .single .finish⟩]).close a)
  distinct : ∀ (j k : Nat) (x y : ItemSet), sets[j]? = some x → sets[k]? = some y →
    x.same y = true → j = k
  complete : ∀ x ∈ sets, ∀ s, (x.shiftSymbols a).contains s = true →
    ∃! k : Nat, ∃ y : ItemSet, sets[k]? = some y ∧ y.same (x.goto a s) = true
  sprung : Sprung a sets
  closed : ∀ x ∈ sets, x.close a = x
  tidy : ∀ x ∈ sets, x.items.Pairwise fun it other => ¬ (it.rule = other.rule ∧ it.dot = other.dot)

theorem Gathered.eq_of_same {members : List Member} (h : Gathered a members) {j k : Nat}
    {m n : Member} (hj : members[j]? = some m) (hk : members[k]? = some n)
    (hsame : m.set.same n.set = true) : j = k := by
  have hlt : ∀ {j k : Nat} {m n : Member}, members[j]? = some m → members[k]? = some n →
      m.set.same n.set = true → ¬ j < k := by
    intro j k m n hj hk hsame hlt
    obtain ⟨hj', rfl⟩ := List.getElem?_eq_some_iff.mp hj
    obtain ⟨hk', rfl⟩ := List.getElem?_eq_some_iff.mp hk
    rw [List.pairwise_iff_getElem.mp h.distinct j k hj' hk' hlt] at hsame
    cases hsame
  have htidy := h.tidy _ (List.mem_of_getElem? hj)
  have hback := htidy.same_symm (h.tidy _ (List.mem_of_getElem? hk)) hsame
  exact Nat.le_antisymm (Nat.not_lt.mp (hlt hk hj hback)) (Nat.not_lt.mp (hlt hj hk hsame))

theorem close_member (ha : a.Faithful) : ∀ m ∈ (of a).members, m.set.close a = m.set :=
  induct (P := fun set => set.close a = set) (ItemSet.close_close ha (ItemSet.tidy_ofList _))
    fun _ _ _ _ => ItemSet.close_close ha (ItemSet.tidy_ofList _)

theorem canonical_of (ha : a.Faithful) (hpos : 0 < a.rules.length) :
    Canonical a ((of a).members.map (·.set)) := by
  obtain ⟨hexplored, hlen⟩ := explored_of ha hpos
  have hgathered := hexplored.gathered
  have hget : ∀ {k : Nat} {x : ItemSet}, ((of a).members.map (·.set))[k]? = some x →
      ∃ m, (of a).members[k]? = some m ∧ m.set = x := by
    intro k x hk
    rw [List.getElem?_map] at hk
    exact Option.map_eq_some_iff.mp hk
  refine ⟨?_, fun j k x y hj hk hsame => ?_, fun x hx s hs => ?_, sprung_of a, fun x hx => ?_,
    fun x hx => ?_⟩
  · obtain ⟨m, hm, hseed⟩ := hexplored.first
    rw [List.getElem?_map, hm, Option.map_some, hseed, seed]
  · obtain ⟨m, hm, rfl⟩ := hget hj
    obtain ⟨n, hn, rfl⟩ := hget hk
    exact hgathered.eq_of_same hm hn hsame
  · obtain ⟨m, hmem, rfl⟩ := List.mem_map.mp hx
    obtain ⟨j, hj⟩ := List.mem_iff_getElem?.mp hmem
    obtain ⟨shifts, hshifts⟩ : ∃ shifts, (of a).shifts[j]? = some shifts :=
      ⟨_, List.getElem?_eq_getElem (hlen ▸ (List.getElem?_eq_some_iff.mp hj).1)⟩
    obtain ⟨k, n, -, hk, hsame⟩ := (hexplored.followed j m shifts hj hshifts).hit s
      (SymbolSet.mem_toList.mpr hs)
    refine ⟨k, ⟨n.set, by rw [List.getElem?_map, hk, Option.map_some], hsame⟩, ?_⟩
    rintro k' ⟨y, hk', hsame'⟩
    obtain ⟨n', hn', rfl⟩ := hget hk'
    have htidy := hgathered.tidy n (List.mem_of_getElem? hk)
    have htidy' := hgathered.tidy n' (List.mem_of_getElem? hn')
    have hnext := ItemSet.tidy_goto m.set a s
    exact hgathered.eq_of_same hn' hk
      (htidy'.same_trans hnext hsame' (htidy.same_symm hnext hsame))
  · obtain ⟨m, hmem, rfl⟩ := List.mem_map.mp hx
    exact close_member ha m hmem
  · obtain ⟨m, hmem, rfl⟩ := List.mem_map.mp hx
    refine (List.pairwise_map.mp (hgathered.tidy m hmem)).imp fun {it other} hne he => hne ?_
    exact (ItemSet.position_eq_iff it other).mpr he

end Collection

namespace Grammar

open Collection

variable {g : Grammar}

/-- Configuring comes to an end, with conflicts or without, and leaves the sets of the canonical
automaton. -/
theorem configure_canonical (hg : g.Built) (hv : g.validate = .ok ()) :
    (∃ c, Explores g.analysis ⟨[.of (seed g.analysis)], []⟩ c ∧
      g.configure.2.rows.map (·.set) = c.members.map (·.set)) ∧
    (∀ set : ItemSet, set.Tidy →
      Saturates (ItemSet.closePass g.analysis) set (set.close g.analysis)) ∧
    Canonical g.analysis (g.configure.2.rows.map (·.set)) := by
  obtain ⟨start, hvalid⟩ := g.validate_ok.mp hv
  have ha := hg.wellFormed.faithful hvalid
  have hpos : 0 < g.analysis.rules.length := hg.wellFormed.rules_pos
  have hsets := sets_eq hg hv
  refine ⟨⟨_, explores_of ha hpos, hsets⟩, fun _ => ItemSet.saturates_close ha, ?_⟩
  rw [hsets]
  exact canonical_of ha hpos

theorem doubled_configure_canonical : doubled.configure.2.conflicts ≠ [] ∧
    (∃ c, Explores doubled.analysis ⟨[.of (seed doubled.analysis)], []⟩ c ∧
      c.members.length = 4) ∧
    Canonical doubled.analysis (doubled.configure.2.rows.map (·.set)) := by
  have hv : doubled.validate = .ok () := by decide +kernel
  have hrows : doubled.configure.2.rows.length = 4 := by decide +kernel
  have hne : doubled.configure.2.conflicts ≠ [] := by decide +kernel
  obtain ⟨⟨c, hexplores, hsets⟩, -, hcanonical⟩ := configure_canonical doubled_built hv
  have hlen := congrArg List.length hsets
  rw [List.length_map, List.length_map, hrows] at hlen
  exact ⟨hne, ⟨c, hexplores, hlen.symm⟩, hcanonical⟩

end Grammar

end CanonicalLR

import CanonicalLR.Grammar.Catalog
import CanonicalLR.Proofs.Grammar.Worklist
import CanonicalLR.Proofs.Item.Least
import CanonicalLR.Proofs.Item.Operations

/-! The search for an item set under its core. At every point of the loop over the item sets the
register holds, under each core, the numbers of the sets with it, and so the search among these finds
what a search among all sets finds. -/

namespace CanonicalLR

variable {a : Analysis}

namespace Catalog

variable {c : Catalog} {set x : ItemSet} {j : Nat} {left : List SymbolId}

/-! The register. -/

theorem lookup_enter (core core' : List (Nat × Nat)) (k : Nat)
    (register : List (List (Nat × Nat) × List Nat)) :
    ((enter core k register).lookup core').getD [] =
      (register.lookup core').getD [] ++ if core = core' then [k] else [] := by
  induction register with
  | nil =>
    by_cases h : core = core'
    · simp [enter, h]
    · simp [enter, h, List.lookup_cons, beq_false_of_ne (Ne.symm h)]
  | cons entry rest ih =>
    obtain ⟨other, numbers⟩ := entry
    simp only [enter]
    by_cases hother : other = core
    · subst hother
      by_cases h : other = core'
      · simp [h]
      · simp [h, List.lookup_cons, beq_false_of_ne (Ne.symm h)]
    · rw [if_neg hother]
      by_cases h : core' = other
      · subst h
        simp [Ne.symm hother]
      · simp [List.lookup_cons, beq_false_of_ne h, ih]

theorem numbers_add (c : Catalog) (set : ItemSet) (core : List (Nat × Nat)) :
    (c.add set).numbers core = c.numbers core ++ if set.core = core then [c.sets.length] else [] :=
  lookup_enter set.core core c.sets.length c.register

/-- Under each core stand the numbers of the sets with it, in ascending order. -/
def Registers (c : Catalog) : Prop :=
  ∀ core, c.numbers core =
    (List.range c.sets.length).filter fun k => c.sets[k]?.any (·.core == core)

theorem Registers.add (h : c.Registers) (set : ItemSet) : (c.add set).Registers := by
  intro core
  have hsets : (c.add set).sets = c.sets ++ [set] := rfl
  have hold : (List.range c.sets.length).filter (fun k => (c.sets ++ [set])[k]?.any (·.core == core)) =
      (List.range c.sets.length).filter fun k => c.sets[k]?.any (·.core == core) := by
    refine List.filter_congr fun k hk => ?_
    rw [List.getElem?_append_left (List.mem_range.mp hk)]
  rw [numbers_add, h core, hsets, List.length_append, List.length_singleton, List.range_succ,
    List.filter_append, hold]
  congr 1
  by_cases hcore : set.core = core <;> simp [hcore]

/-! The search. -/

theorem find?_range (sets : List ItemSet) (p : ItemSet → Bool) :
    ((List.range sets.length).find? fun k => sets[k]?.any p) = sets.findIdx? p := by
  refine Option.ext fun k => ?_
  rw [List.find?_range_eq_some, List.findIdx?_eq_some_iff_getElem, List.mem_range]
  constructor
  · rintro ⟨hp, hk, hbefore⟩
    refine ⟨hk, by simpa [hk] using hp, fun j hj => ?_⟩
    simpa [hj.trans hk] using hbefore j hj
  · rintro ⟨hk, hp, hbefore⟩
    refine ⟨by simpa [hk] using hp, hk, fun j hj => ?_⟩
    simpa [hj.trans hk] using hbefore j hj

/-- The same set has the same core, so that asking for the core first rules none out. -/
theorem core_and_same {y : ItemSet} (hy : y.Tidy) (set : ItemSet) :
    (y.core == set.core && y.same set) = y.same set := by
  rw [Bool.eq_iff_iff, Bool.and_eq_true, beq_iff_eq]
  exact ⟨And.right, fun hsame => ⟨hy.core_eq hsame, hsame⟩⟩

theorem Registers.find?_eq (h : c.Registers) (htidy : ∀ y ∈ c.sets, y.Tidy) (set : ItemSet) :
    c.find? set = c.sets.findIdx? (·.same set) := by
  rw [find?, h set.core, List.find?_filter, ← find?_range]
  congr 1
  funext k
  cases hk : c.sets[k]? with
  | none => rfl
  | some y =>
    have hy := core_and_same (htidy y (List.mem_of_getElem? hk)) set
    simpa only [Option.any_some, Bool.decide_and, Bool.decide_eq_true] using hy

theorem find?_members {sets : List ItemSet} (htidy : ∀ y ∈ sets, y.Tidy) (set : ItemSet) :
    Collection.find? (sets.map .of) (.of set) = sets.findIdx? (·.same set) := by
  rw [Collection.find?, List.findIdx?_map]
  induction sets with
  | nil => rfl
  | cons y sets ih =>
    obtain ⟨hy, hsets⟩ := List.forall_mem_cons.mp htidy
    rw [List.findIdx?_cons, List.findIdx?_cons, ih hsets]
    simp only [Function.comp_apply, Member.of, core_and_same hy]

theorem locate_induct {P : Catalog → Prop} (h : P c) (hadd : P (c.add set)) :
    P (c.locate set).2 := by
  unfold locate
  split
  · exact h
  · exact hadd

theorem prefix_locate (c : Catalog) (set : ItemSet) : c.sets <+: (c.locate set).2.sets :=
  locate_induct (P := fun c' => c.sets <+: c'.sets) (List.prefix_refl _) (List.prefix_append _ _)

/-- Without the register the same set is found, or it is new as well. -/
theorem Registers.locate_members (h : c.Registers) (htidy : ∀ y ∈ c.sets, y.Tidy) (set : ItemSet) :
    Collection.locate (c.sets.map .of) set =
      ((c.locate set).1, (c.locate set).2.sets.map .of) := by
  have hfind : Collection.find? (c.sets.map .of) (.of set) = c.find? set :=
    (find?_members htidy set).trans (h.find?_eq htidy set).symm
  rw [Collection.locate, Catalog.locate, hfind]
  cases c.find? set with
  | some k => rfl
  | none => simp [Catalog.add]

/-! The loop. -/

/-- A point of the loop over the sets: `j` of them were taken up, and `left` are the symbols with
which the last of these is still to be followed. -/
inductive Point (a : Analysis) : Catalog → Nat → List SymbolId → Prop where
  | start : Point a (start a) 0 []
  | take {c : Catalog} {j : Nat} {x : ItemSet} : Point a c j [] → c.sets[j]? = some x →
      Point a c (j + 1) (x.shiftSymbols a).toList
  | follow {c : Catalog} {j : Nat} {x : ItemSet} {s : SymbolId} {left : List SymbolId} :
      Point a c (j + 1) (s :: left) → c.sets[j]? = some x →
      Point a (c.locate (x.goto a s)).2 (j + 1) left

theorem Point.registers (h : Point a c j left) : c.Registers := by
  induction h with
  | start => exact Registers.add (fun _ => rfl) _
  | take _ _ ih => exact ih
  | follow _ _ ih => exact locate_induct ih (ih.add _)

theorem Point.tidy (h : Point a c j left) : ∀ y ∈ c.sets, y.Tidy := by
  induction h with
  | start => simpa [Catalog.start, Catalog.add] using ItemSet.tidy_seed a
  | take _ _ ih => exact ih
  | @follow _ _ x s _ _ _ ih =>
    refine locate_induct (P := fun c => ∀ y ∈ c.sets, y.Tidy) ih ?_
    exact List.forall_mem_append.mpr ⟨ih, by simpa using ItemSet.tidy_goto x a s⟩

/-- From one point to the next the loop makes the members that it makes without the register. -/
theorem Point.follow_all {ids : List SymbolId} (h : Point a c (j + 1) (ids ++ left))
    (hx : c.sets[j]? = some x) (found : List Member × SymbolMap Nat)
    (hfound : found.1 = c.sets.map .of) :
    ∃ c', Point a c' (j + 1) left ∧
      (ids.foldl (Collection.follow a x) found).1 = c'.sets.map .of := by
  induction ids generalizing c found with
  | nil => exact ⟨c, h, hfound⟩
  | cons s ids ih =>
    -- A set that joins the others comes behind them, so that number `j` is still the same set.
    obtain ⟨rest, hrest⟩ := c.prefix_locate (x.goto a s)
    have hx' : (c.locate (x.goto a s)).2.sets[j]? = some x := by
      rw [← hrest, List.getElem?_append_left (List.getElem?_eq_some_iff.mp hx).1, hx]
    refine ih (h.follow hx) hx' _ ?_
    rw [Collection.follow, hfound, h.registers.locate_members h.tidy]

theorem Point.explores {b b' : Collection} (h : Collection.Explores a b b')
    (hp : Point a c b.shifts.length []) (hb : b.members = c.sets.map .of) :
    ∃ c', Point a c' b'.shifts.length [] ∧ b'.members = c'.sets.map .of := by
  induction h generalizing c with
  | done _ => exact ⟨c, hp, hb⟩
  | @next b b' m hm _ ih =>
    obtain ⟨x, hx, rfl⟩ : ∃ x, c.sets[b.shifts.length]? = some x ∧ Member.of x = m := by
      rw [hb, List.getElem?_map] at hm
      exact Option.map_eq_some_iff.mp hm
    have htaken := hp.take hx
    rw [← List.append_nil (x.shiftSymbols a).toList] at htaken
    obtain ⟨c', hp', hmembers⟩ := htaken.follow_all hx (b.members, {}) hb
    have hlen : (b.explore a x).shifts.length = b.shifts.length + 1 := by
      rw [Collection.explore, List.length_append, List.length_singleton]
    exact ih (hlen ▸ hp') hmembers

end Catalog

namespace Grammar

open Catalog ItemSet.Operation

/-- Whether two item sets are the same is a matter of their items alone, in whatever order, and the
same sets have the same core. So at every point of the loop over the sets, where the register holds
the sets with each core, the search among those finds what a search among all sets finds. The loop
ends, and leaves the sets of the configured grammar. -/
theorem search_by_core :
    Equivalence (fun ops ops' : List ItemSet.Operation => (run ops).same (run ops') = true) ∧
    (∀ ops ops' : List ItemSet.Operation,
      ((run ops).same (run ops') = true ↔ (run ops).items.Perm (run ops').items) ∧
      ((run ops).same (run ops') = true → (run ops).core = (run ops').core)) ∧
    (∀ a c j s left x, Point a c (j + 1) (s :: left) → c.sets[j]? = some x →
      c.Registers ∧ c.find? (x.goto a s) = c.sets.findIdx? (·.same (x.goto a s)) ∧
      Collection.find? (c.sets.map .of) (.of (x.goto a s)) =
        c.sets.findIdx? (·.same (x.goto a s))) ∧
    ∀ g : Grammar, g.Built → g.validate = .ok () →
      ∃ c, Point g.analysis c c.sets.length [] ∧ c.sets = g.configure.2.rows.map (·.set) := by
  refine ⟨equivalence_same, fun ops ops' => ⟨(tidy_run ops).same_iff_perm _, (tidy_run ops).core_eq⟩,
    fun a c j s left x hp _ => ⟨hp.registers, hp.registers.find?_eq hp.tidy _,
      find?_members hp.tidy _⟩, fun g hg hv => ?_⟩
  obtain ⟨start, hvalid⟩ := g.validate_ok.mp hv
  have ha := hg.wellFormed.faithful hvalid
  have hpos : 0 < g.analysis.rules.length := hg.wellFormed.rules_pos
  obtain ⟨c, hp, hmembers⟩ := Point.explores (Collection.explores_of ha hpos) .start rfl
  have hsets : c.sets = (Collection.of g.analysis).members.map (·.set) := by
    rw [hmembers, List.map_map]
    exact (List.map_id _).symm
  rw [(Collection.explored_of ha hpos).2, hmembers, List.length_map] at hp
  exact ⟨c, hp, hsets.trans (sets_eq hg hv).symm⟩

/-- The grammar `A → x A y` and `A → x y`. The sets behind the first `x` and behind the second one
have the same rules and dots, and different terminals ahead. -/
def bracketed : Grammar :=
  (((new ringedSymbols).setStart 2).addRule { id := 1, lhs := 2, rhs := [4, 2, 5] }).addRule
    { id := 2, lhs := 2, rhs := [4, 5] }

theorem bracketed_built : bracketed.Built := by
  refine .addRule (.addRule (.setStart (.new ringedSymbols_built) ?_) ?_) ?_
  all_goals decide +kernel

theorem bracketed_search_by_core : ∃ c, Point bracketed.analysis c c.sets.length [] ∧
    c.numbers [(1, 0), (1, 1), (2, 0), (2, 1)] = [2, 4] ∧
    c.sets[2]?.any (fun x => c.sets[4]?.any (·.same x)) = false := by
  obtain ⟨c, hp, hsets⟩ := search_by_core.2.2.2 bracketed bracketed_built (by decide +kernel)
  refine ⟨c, hp, ?_, ?_⟩
  · rw [hp.registers, hsets]
    decide +kernel
  · rw [hsets]
    decide +kernel

end Grammar

end CanonicalLR

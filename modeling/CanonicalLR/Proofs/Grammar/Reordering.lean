import CanonicalLR.Proofs.Grammar.Renaming
import CanonicalLR.Proofs.Grammar.Resolved

/-! Configuring grammars that differ in their order alone. They have the same conflicts, as many item
sets, and in states that are reached with the same symbols the same choices. -/

namespace CanonicalLR.Grammar

open Collection

variable {g g' : Grammar} {π : Equiv.Perm SymbolId} {σ : Equiv.Perm Nat} {path : List SymbolId}
  {s : SymbolId} {i j j' : Nat}

theorem rows_eq_nil (hv : g.validate ≠ .ok ()) : g.configure.2.rows = [] := by
  rw [configure]
  split
  · rfl
  · next hok => exact absurd hok hv

theorem configure_eq (g : Grammar) :
    ∃ rows states conflicts, g.configure.2 = { g with rows, states, conflicts } := by
  rw [configure]
  split
  · exact ⟨_, _, _, rfl⟩
  · rw [build]
    split <;> exact ⟨_, _, _, rfl⟩

namespace Renames

theorem configure (h : Renames g g' π σ) : Renames g.configure.2 g'.configure.2 π σ := by
  obtain ⟨_, _, _, he⟩ := g.configure_eq
  obtain ⟨_, _, _, he'⟩ := g'.configure_eq
  rw [he, he']
  exact ⟨h.get?, h.finish, h.rule, h.top, h.start, h.precedence?, h.assoc?⟩

theorem validate_ok_iff (h : Renames g g' π σ) : g.validate = .ok () ↔ g'.validate = .ok () := by
  rw [validate_ok, validate_ok]
  exact ⟨fun ⟨_, hv⟩ => ⟨_, h.valid hv⟩, fun ⟨_, hv⟩ => ⟨_, h.symm.valid hv⟩⟩

theorem clear (h : Renames g g' π σ) (hg : g.Built) (hclear : g.Clear) : g'.Clear where
  unrivalled := by
    intro path t i i' hi hi'
    rw [← h.symm.canReduce_iff] at hi hi'
    exact σ.symm.injective (hclear.unrivalled _ _ _ _ hi hi')
  decided := by
    intro path s i rule' hs hi hrule'
    rw [← h.symm.canShift_iff] at hs
    rw [← h.symm.canReduce_iff] at hi
    obtain ⟨rule, hrule, hrenamed⟩ := h.symm.exists_rule hrule'
    have hregistered : g.symbols.Registered (π.symm s) := Registered.of_canShift hg.registered hs
    have hverdict := h.symm.verdict hrenamed (h.symm.registered_iff.mp hregistered)
    rw [← hverdict]
    exact hclear.decided hs hi hrule

theorem configure_ok (h : Renames g g' π σ) (hg : g.Built) (hg' : g'.Built) :
    g.configure.1 = .ok () ↔ g'.configure.1 = .ok () := by
  rw [configure_ok_iff hg, configure_ok_iff hg']
  constructor
  · rintro ⟨⟨_, hv⟩, hclear⟩
    exact ⟨⟨_, h.valid hv⟩, h.clear hg hclear⟩
  · rintro ⟨⟨_, hv⟩, hclear⟩
    exact ⟨⟨_, h.symm.valid hv⟩, h.symm.clear hg' hclear⟩

/-! The number of item sets. -/

/-- Members are told apart by what they are reached with, so a grammar has no fewer of them than the
one it is renamed from. -/
theorem length_members_le (h : Renames g g' π σ) (ha : g.analysis.Faithful)
    (ha' : g'.analysis.Faithful) (hpos : 0 < g.rules.length) (hpos' : 0 < g'.rules.length) :
    (of g.analysis).members.length ≤ (of g'.analysis).members.length := by
  obtain ⟨hexplored, -⟩ := explored_of ha hpos
  have hex : ∀ j : Fin (of g.analysis).members.length,
      ∃ (j' : Fin (of g'.analysis).members.length) (path : List SymbolId),
        (of g.analysis).members[j].set.Spells g.analysis path ∧
          (of g'.analysis).members[j'].set.Spells g'.analysis (path.map π) := by
    intro j
    have hmem : (of g.analysis).members[j] ∈ (of g.analysis).members := List.getElem_mem _
    obtain ⟨path, hspells⟩ := hexplored.gathered.spells _ hmem
    obtain ⟨i, d, ahead, hhas⟩ := exists_has ha _ hmem
    obtain ⟨j', m', hm', hspells'⟩ := exists_at ha' hpos' (h.reaches ((hspells _ _ _).mp hhas))
    obtain ⟨hlt, rfl⟩ := List.getElem?_eq_some_iff.mp hm'
    exact ⟨⟨j', hlt⟩, path, hspells, hspells'⟩
  choose number path hspells hspells' using hex
  have hinjective : Function.Injective number := by
    intro x y hxy
    by_contra hne
    -- two members with one number would hold the same items
    have hsame : ∀ x y : Fin (of g.analysis).members.length, number x = number y →
        (of g.analysis).members[x].set.same (of g.analysis).members[y].set = true := by
      intro x y hxy
      have hx' := hspells' x
      rw [hxy] at hx'
      refine ((hexplored.gathered.tidy _ (List.getElem_mem _)).same_iff
        (hexplored.gathered.tidy _ (List.getElem_mem _))).mpr fun i d ahead => ?_
      have hreaches : Reaches g.analysis (path x) i d ahead ↔
          Reaches g.analysis (path y) i d ahead := by
        rw [← h.reaches_iff, ← h.reaches_iff, ← hx' _ _ _, ← hspells' y _ _ _]
      exact (hspells x i d ahead).trans (hreaches.trans (hspells y i d ahead).symm)
    have hdistinct := List.pairwise_iff_getElem.mp hexplored.gathered.distinct
    rcases Nat.lt_or_gt_of_ne (Fin.val_ne_of_ne hne) with hlt | hlt
    · exact Bool.false_ne_true ((hdistinct _ _ x.isLt y.isLt hlt).symm.trans (hsame x y hxy))
    · exact Bool.false_ne_true ((hdistinct _ _ y.isLt x.isLt hlt).symm.trans (hsame y x hxy.symm))
  simpa using Fintype.card_le_of_injective number hinjective

theorem length_rows (h : Renames g g' π σ) (hg : g.Built) (hg' : g'.Built) :
    g.configure.2.rows.length = g'.configure.2.rows.length := by
  by_cases hv : g.validate = .ok ()
  · have hv' := h.validate_ok_iff.mp hv
    obtain ⟨_, hvalid⟩ := g.validate_ok.mp hv
    have ha := hg.wellFormed.faithful hvalid
    have ha' := hg'.wellFormed.faithful (h.valid hvalid)
    have hpos := hg.wellFormed.rules_pos
    have hpos' := hg'.wellFormed.rules_pos
    rw [Grammar.length_rows hg hv, Grammar.length_rows hg' hv']
    exact Nat.le_antisymm (h.length_members_le ha ha' hpos hpos')
      (h.symm.length_members_le ha' ha hpos' hpos)
  · rw [rows_eq_nil hv, rows_eq_nil (mt h.validate_ok_iff.mpr hv)]

/-! The choices of states. -/

theorem settled {shift shift' : Option Nat} (h : Renames g g' π σ)
    (hs : g.symbols.Registered s) (hshift : shift'.isSome = shift.isSome) (reduce : Option Nat) :
    (g'.settled (π s) shift' (reduce.map σ)).1.isSome = (g.settled s shift reduce).1.isSome ∧
      (g'.settled (π s) shift' (reduce.map σ)).2 = (g.settled s shift reduce).2.map σ := by
  cases shift with
  | none =>
    rw [Option.isSome_none, Option.isSome_eq_false_iff, Option.isNone_iff_eq_none] at hshift
    rw [hshift]
    exact ⟨rfl, rfl⟩
  | some next =>
    rw [Option.isSome_some, Option.isSome_iff_exists] at hshift
    obtain ⟨next', rfl⟩ := hshift
    cases reduce with
    | none => exact ⟨rfl, rfl⟩
    | some i =>
      have hrel := h.rule i
      simp only [Grammar.settled, Option.isSome_some, if_true, settle, Option.map_some,
        Option.bind_some]
      cases hrule : g.rules[i]? with
      | none =>
        rw [hrule] at hrel
        cases hrule' : g'.rules[σ i]? with
        | none => exact ⟨rfl, rfl⟩
        | some rule' =>
          rw [hrule'] at hrel
          cases hrel
      | some rule =>
        obtain ⟨rule', hrule', hrenamed⟩ := h.exists_rule hrule
        simp only [hrule', h.verdict hrenamed hs]
        cases g.verdict s rule <;> exact ⟨rfl, rfl⟩

/-- States that are reached with the same symbols act alike. -/
theorem cell (h : Renames g g' π σ) (hg : g.Built) (hg' : g'.Built)
    (hok : g.configure.1 = .ok ()) (hj : At g.analysis j path)
    (hj' : At g'.analysis j' (path.map π)) (hs : g.symbols.Registered s) :
    ((g'.configure.2.state j').shift? (π s)).isSome =
        ((g.configure.2.state j).shift? s).isSome ∧
      (g'.configure.2.state j').reduce? (π s) = ((g.configure.2.state j).reduce? s).map σ := by
  have hok' := (h.configure_ok hg hg').mp hok
  obtain ⟨shift, rules, hchoices, hcell⟩ := cell_of_at hg (Prod.ext hok rfl) hj s
  obtain ⟨shift', rules', hchoices', hcell'⟩ := cell_of_at hg' (Prod.ext hok' rfl) hj' (π s)
  have hshift : shift'.isSome = shift.isSome := by
    rw [Bool.eq_iff_iff, hchoices.canShift, hchoices'.canShift, h.canShift_iff]
  have hrules : rules'.getLast? = rules.getLast?.map σ := by
    by_cases hi : ∃ i, CanReduce g.analysis path i s
    · obtain ⟨i, hi⟩ := hi
      rw [hchoices.rules_eq hi, hchoices'.rules_eq (h.canReduce_iff.mpr hi)]
      rfl
    · have hno' : ∀ i, ¬ CanReduce g'.analysis (path.map π) i (π s) := fun i hi' => by
        rw [← σ.apply_symm_apply i, h.canReduce_iff] at hi'
        exact hi ⟨_, hi'⟩
      rw [hchoices.rules_eq_nil fun i hi' => hi ⟨i, hi'⟩, hchoices'.rules_eq_nil hno']
      rfl
  have hsettled := h.settled hs hshift rules.getLast?
  rw [← hrules, ← hcell, ← hcell'] at hsettled
  exact hsettled

end Renames

end CanonicalLR.Grammar

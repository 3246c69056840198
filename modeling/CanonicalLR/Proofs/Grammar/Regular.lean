import CanonicalLR.Proofs.Grammar.Configured
import CanonicalLR.Proofs.Symbol.Map

/-! The states that configuring leaves as data: their maps ascend, mention registered symbols, and
lead to states and rules that are there. -/

namespace CanonicalLR

/-- The maps of a state among so many rules and states. -/
structure State.Regular (r : Registry) (rules states : Nat) (state : State) : Prop where
  shifts : state.shifts.Ordered
  reduces : state.reduces.Ordered
  shift : ∀ s k, state.shift? s = some k → r.Registered s ∧ k < states
  reduce : ∀ s i, state.reduce? s = some i → r.Registered s ∧ i < rules

/-! Maps in ascending order while the states are built. -/

def State.Ordered (state : State) : Prop := state.shifts.Ordered ∧ state.reduces.Ordered

namespace Collection

theorem ordered_follow {a : Analysis} {set : ItemSet} {ids : List SymbolId}
    {found : List Member × SymbolMap Nat} (h : found.2.Ordered) :
    (ids.foldl (follow a set) found).2.Ordered := by
  induction ids generalizing found with
  | nil => exact h
  | cons s ids ih => exact ih (h.insert s _)

theorem ordered_exploreAll {a : Analysis} {fuel : Nat} {c : Collection}
    (h : ∀ shifts ∈ c.shifts, shifts.Ordered) :
    ∀ shifts ∈ (exploreAll a fuel c).shifts, shifts.Ordered := by
  induction fuel generalizing c with
  | zero => exact h
  | succ fuel ih =>
    rw [exploreAll]
    split
    · exact h
    · refine ih fun shifts hmem => ?_
      rcases List.mem_append.mp hmem with hmem | hmem
      · exact h shifts hmem
      · rw [List.mem_singleton.mp hmem]
        exact ordered_follow SymbolMap.ordered_empty

theorem ordered_of (a : Analysis) : ∀ shifts ∈ (of a).shifts, shifts.Ordered :=
  ordered_exploreAll (by simp)

end Collection

namespace Grammar

open Collection

variable {g g' : Grammar}

theorem ordered_enterReduce (g : Grammar) (a : Analysis) (state : Nat) {row : Row}
    (h : row.actions.Ordered) (s : SymbolId) : (g.enterReduce a state row s).1.actions.Ordered := by
  have hfold : ∀ (rules : List Nat) {map : SymbolMap Nat}, map.Ordered →
      (rules.foldl (fun map rule => map.insert s rule) map).Ordered := by
    intro rules
    induction rules with
    | nil => exact id
    | cons rule rules ih => exact fun hm => ih (hm.insert s rule)
  rw [enterReduce]
  split <;> exact ⟨h.1, hfold _ h.2⟩

theorem ordered_resolve (g : Grammar) (state : Nat) {row : Row} (h : row.actions.Ordered)
    (s : SymbolId) : (g.resolve state row s).1.actions.Ordered := by
  rw [resolve]
  split
  · exact h
  · split
    · exact h
    · split
      · exact ⟨h.1, h.2.erase s⟩
      · exact ⟨h.1.erase s, h.2⟩
      · exact ⟨h.1.erase s, h.2.erase s⟩
      · exact h

theorem ordered_eachCell {work : Row → SymbolId → Row × Option Conflict}
    (hwork : ∀ {row : Row}, row.actions.Ordered → ∀ s, (work row s).1.actions.Ordered)
    {ids : List SymbolId} {found : Row × List Conflict} (h : found.1.actions.Ordered) :
    (eachCell work ids found).1.actions.Ordered := by
  induction ids generalizing found with
  | nil => exact h
  | cons s ids ih => exact ih (hwork h s)

theorem ordered_row (g : Grammar) (a : Analysis) (state : Nat) (set : ItemSet)
    {shifts : SymbolMap Nat} (h : shifts.Ordered) :
    (g.row a state set shifts).1.actions.Ordered := by
  refine ordered_eachCell (g.ordered_resolve state) ?_
  exact ordered_eachCell (g.ordered_enterReduce a state) ⟨h, SymbolMap.ordered_empty⟩

theorem exists_at_of_getElem? (hg : g.Built) (h : g.configure = (.ok (), g')) {j : Nat}
    {state : State} (hj : g'.states[j]? = some state) :
    (∃ path, At g.analysis j path) ∧ state.Ordered := by
  obtain ⟨-, -, -, -, hstates, -⟩ := configure_ok h
  obtain ⟨hexplored, hlen⟩ := explored_of (faithful_of_ok hg h) hg.wellFormed.rules_pos
  have hlt : j < (of g.analysis).members.length := by
    rw [← length_states hg h]
    exact (List.getElem?_eq_some_iff.mp hj).1
  have hm := List.getElem?_eq_getElem hlt
  have hshifts := List.getElem?_eq_getElem (show j < (of g.analysis).shifts.length by omega)
  obtain ⟨path, hpath⟩ := hexplored.gathered.spells _ (List.getElem_mem hlt)
  have hget := g.getElem?_rowsOf g.analysis hm hshifts
  rw [hstates, List.getElem?_map, hget, Option.map_some, Option.some.injEq] at hj
  refine ⟨⟨path, _, hm, hpath⟩, ?_⟩
  rw [← hj]
  exact g.ordered_row _ _ _ (ordered_of _ _ (List.getElem_mem _))

theorem lt_length_states_of_at (h : g.configure = (.ok (), g')) (hg : g.Built) {k : Nat}
    {path : List SymbolId} (hk : At g.analysis k path) : k < g'.states.length := by
  obtain ⟨m, hm, -⟩ := hk
  rw [length_states hg h]
  exact (List.getElem?_eq_some_iff.mp hm).1

def Regular (g : Grammar) : Prop :=
  ∀ state ∈ g.states, state.Regular g.symbols g.rules.length g.states.length

def Registered (g : Grammar) : Prop :=
  ∀ rule ∈ g.rules, ∀ s, rule.Mentions s → g.symbols.Registered s

theorem Built.registered (h : g.Built) : g.Registered := by
  induction h with
  | new hr =>
    intro rule hrule s hs
    obtain rfl := List.mem_singleton.mp hrule
    rcases hs with rfl | hs
    · exact Registry.registered_of_get? hr.sound.start
    · cases hs
  | addRule _ hr ih =>
    intro rule hrule s hs
    rcases List.mem_append.mp hrule with hrule | hrule
    · exact ih rule hrule s hs
    · rw [List.mem_singleton.mp hrule] at hs
      exact hr s hs
  | @setStart g t _ ht ih =>
    -- rewriting the first rule leaves every rule with its old symbols, or with the new start symbol
    have hall : ∀ rule ∈ g.rules.modify 0 fun rule => { rule with rhs := [t] },
        ∀ s, rule.Mentions s → g.symbols.Registered s := by
      intro rule hrule s hs
      obtain ⟨j, hj⟩ := List.mem_iff_getElem?.mp hrule
      rw [List.getElem?_modify] at hj
      obtain ⟨old, hold, rfl⟩ := Option.map_eq_some_iff.mp hj
      have hmem := List.mem_of_getElem? hold
      split at hs
      · rcases hs with hs | hs
        · exact ih old hmem s (Or.inl hs)
        · rw [List.mem_singleton.mp hs]
          exact ht
      · exact ih old hmem s hs
    exact hall
  | setPrecedence _ ih => exact ih
  | setAssoc _ ih => exact ih
  | @configure g _ ih =>
    obtain ⟨hs, hr, -⟩ := g.configure_keeps
    rw [Registered, hs, hr]
    exact ih
  | install _ ih => exact ih

theorem Registered.of_canShift (h : g.Registered) {path : List SymbolId} {s : SymbolId}
    (hs : CanShift g.analysis path s) : g.symbols.Registered s := by
  obtain ⟨i, d, -, -, hdot⟩ := hs
  obtain ⟨rule, hrule, hmem⟩ := Analysis.exists_rule_of_mem (List.mem_of_getElem? hdot)
  exact h rule (List.mem_of_getElem? hrule) s (Or.inr hmem)

theorem regular_of_ok (hg : g.Built) (hr : g.Registered) (h : g.configure = (.ok (), g')) :
    g'.Regular := by
  intro state hmem
  obtain ⟨j, hj⟩ := List.mem_iff_getElem?.mp hmem
  obtain ⟨⟨path, hpath⟩, hordered⟩ := exists_at_of_getElem? hg h hj
  obtain ⟨-, hsymbols, -⟩ := configure_ok h
  have htracks := tracks_of_ok hg h
  rw [← analysis_of_ok h] at hpath
  have hstate : g'.state j = state := by simp [Grammar.state, List.getD_eq_getElem?_getD, hj]
  refine ⟨hordered.1, hordered.2, fun s k hk => ?_, fun s i hi => ?_⟩
  · obtain ⟨hnext, hshift⟩ := htracks.shift hpath (hstate ▸ hk)
    rw [analysis_of_ok h] at hnext hshift
    rw [hsymbols]
    exact ⟨hr.of_canShift hshift, lt_length_states_of_at h hg hnext⟩
  · obtain ⟨rule, hrule, hreaches⟩ := htracks.reduce hpath (hstate ▸ hi)
    have ha : g'.analysis.Faithful := analysis_of_ok h ▸ faithful_of_ok hg h
    exact ⟨Registry.registered_of_isTerminal (hreaches.isTerminal ha),
      (List.getElem?_eq_some_iff.mp hrule).1⟩

end Grammar

end CanonicalLR

import CanonicalLR.Proofs.Automaton.Settling
import CanonicalLR.Proofs.Grammar.Built
import CanonicalLR.Proofs.Grammar.Collection
import CanonicalLR.Proofs.Grammar.Rows

/-! Configured grammars. The states do only what the items allow and never lack a way on after a
nonterminal; where nothing is declared they do all that the items allow. -/

namespace CanonicalLR.Grammar

open Collection

variable {g g' : Grammar} {path : List SymbolId} {s : SymbolId} {i j k : Nat}

/-- The actions of the states are among those of the items. -/
structure Tracks (g : Grammar) : Prop where
  first : At g.analysis 0 []
  shift : ∀ {j : Nat} {path : List SymbolId} {s : SymbolId} {k : Nat}, At g.analysis j path →
    (g.state j).shift? s = some k → At g.analysis k (path ++ [s]) ∧ CanShift g.analysis path s
  reduce : ∀ {j : Nat} {path : List SymbolId} {s : SymbolId} {i : Nat}, At g.analysis j path →
    (g.state j).reduce? s = some i → CanReduce g.analysis path i s
  goto : ∀ {j : Nat} {path : List SymbolId} {s : SymbolId}, At g.analysis j path →
    CanShift g.analysis path s → g.symbols.isTerminal s = false →
    ∃ k, (g.state j).shift? s = some k

/-- The actions of the states are those of the items, and there is never a choice. -/
structure Exact (g : Grammar) : Prop extends Tracks g where
  canShift : ∀ {j : Nat} {path : List SymbolId} {s : SymbolId}, At g.analysis j path →
    CanShift g.analysis path s → ∃ k, (g.state j).shift? s = some k
  canReduce : ∀ {j : Nat} {path : List SymbolId} {s : SymbolId} {i : Nat}, At g.analysis j path →
    CanReduce g.analysis path i s → (g.state j).reduce? s = some i
  determined : Determined g.analysis

/-! What configuring leaves if there is no conflict. -/

theorem configure_ok (h : g.configure = (.ok (), g')) :
    (∃ s, g.Valid s) ∧ g'.symbols = g.symbols ∧ g'.rules = g.rules ∧ g'.start = g.start ∧
      g'.states = (g.rowsOf g.analysis (.of g.analysis)).map (·.1.actions) ∧
      ∀ found ∈ g.rowsOf g.analysis (.of g.analysis), found.2 = [] := by
  unfold configure at h
  split at h
  · cases h
  · rename_i hv
    simp only [build] at h
    split at h
    · rename_i hnone
      rw [Prod.mk.injEq] at h
      obtain ⟨-, rfl⟩ := h
      refine ⟨g.validate_ok.mp hv, rfl, rfl, rfl, List.map_map, fun found hmem => ?_⟩
      have hflat := List.isEmpty_iff.mp hnone
      exact List.flatMap_eq_nil_iff.mp hflat found hmem
    · cases h

theorem analysis_eq (hs : g'.symbols = g.symbols) (hr : g'.rules = g.rules) :
    g'.analysis = g.analysis := by
  rw [analysis, hs, hr, analysis]

theorem analysis_of_ok (h : g.configure = (.ok (), g')) : g'.analysis = g.analysis := by
  obtain ⟨-, hsymbols, hrules, -⟩ := configure_ok h
  exact analysis_eq hsymbols hrules

theorem faithful_of_ok (hg : g.Built) (h : g.configure = (.ok (), g')) :
    g.analysis.Faithful := by
  obtain ⟨⟨start, hv⟩, -⟩ := configure_ok h
  exact hg.wellFormed.faithful hv

theorem row_of_member (hg : g.Built) (hv : g.validate = .ok ()) {m : Member}
    (hm : (of g.analysis).members[k]? = some m) :
    ∃ shifts, (of g.analysis).shifts[k]? = some shifts ∧
      (∀ s, (shifts.get? s).isSome = true ↔ (m.set.shiftSymbols g.analysis).contains s = true) ∧
      g.configure.2.rows[k]? = some (g.row g.analysis k m.set shifts).1 ∧
      (g.row g.analysis k m.set shifts).1.set = m.set := by
  obtain ⟨start, hvalid⟩ := g.validate_ok.mp hv
  have ha := hg.wellFormed.faithful hvalid
  have hpos : 0 < g.analysis.rules.length := hg.wellFormed.rules_pos
  obtain ⟨path, hspells⟩ := (explored_of ha hpos).1.gathered.spells m (List.mem_of_getElem? hm)
  obtain ⟨m', shifts, hm', hshifts, -, hnext⟩ := At.shifts ha hpos ⟨m, hm, hspells⟩
  obtain rfl := Option.some.inj (hm.symm.trans hm')
  refine ⟨shifts, hshifts, fun s => (hnext s).2, ?_,
    (g.row_eq g.analysis k m.set fun s => (hnext s).2).1⟩
  rw [configure_rows hv, List.getElem?_map, g.getElem?_rowsOf g.analysis hm hshifts,
    Option.map_some]

/-- The rows belong to the members, one to each. -/
theorem length_rowsOf (hg : g.Built) (hv : g.Valid s) :
    (g.rowsOf g.analysis (of g.analysis)).length = (of g.analysis).members.length := by
  have hpos : 0 < g.analysis.rules.length := hg.wellFormed.rules_pos
  have hlen := (explored_of (hg.wellFormed.faithful hv) hpos).2
  rw [rowsOf, List.length_mapIdx, List.length_zip, hlen, Nat.min_self]

theorem length_rows (hg : g.Built) (hv : g.validate = .ok ()) :
    g.configure.2.rows.length = (of g.analysis).members.length := by
  obtain ⟨start, hvalid⟩ := g.validate_ok.mp hv
  rw [configure_rows hv, List.length_map, length_rowsOf hg hvalid]

theorem length_states (hg : g.Built) (h : g.configure = (.ok (), g')) :
    g'.states.length = (of g.analysis).members.length := by
  obtain ⟨⟨start, hv⟩, -, -, -, hstates, -⟩ := configure_ok h
  rw [hstates, List.length_map, length_rowsOf hg hv]

theorem sets_eq (hg : g.Built) (hv : g.validate = .ok ()) :
    g.configure.2.rows.map (·.set) = (of g.analysis).members.map (·.set) := by
  refine List.ext_getElem? fun k => ?_
  rw [List.getElem?_map, List.getElem?_map]
  cases hm : (of g.analysis).members[k]? with
  | none =>
    rw [List.getElem?_eq_none_iff, ← length_rows hg hv] at hm
    rw [List.getElem?_eq_none_iff.mpr hm, Option.map_none, Option.map_none]
  | some m =>
    obtain ⟨_, -, -, hrow, hset⟩ := row_of_member hg hv hm
    rw [hrow, Option.map_some, Option.map_some, hset]

theorem isConfigured_of_ok (hg : g.Built) (h : g.configure = (.ok (), g')) :
    g'.isConfigured = true := by
  obtain ⟨m, hm, -⟩ := (explored_of (faithful_of_ok hg h) hg.wellFormed.rules_pos).1.first
  have hne : 0 < g'.states.length := by
    rw [length_states hg h]
    exact (List.getElem?_eq_some_iff.mp hm).1
  cases hs : g'.states with
  | nil => simp [hs] at hne
  | cons _ _ => simp [isConfigured, hs]

theorem mem_reduceRules_iff (hpos : 0 < g.rules.length)
    {set : ItemSet} (h : set.Spells g.analysis path) :
    i ∈ set.reduceRules g.analysis s ↔ CanReduce g.analysis path i s := by
  rw [ItemSet.mem_reduceRules]
  constructor
  · rintro ⟨d, hlen, hhas⟩
    have hr := (h _ _ _).mp hhas
    obtain ⟨hlt, hle⟩ := hr.within hpos
    have hrule : g.analysis.rules[i]? = some _ := List.getElem?_eq_getElem hlt
    have hd : d = (g.analysis.rules[i]).rhs.length := by
      rw [Analysis.rhs_eq hrule] at hle hlen
      omega
    exact ⟨_, hrule, hd ▸ hr⟩
  · rintro ⟨rule, hrule, hr⟩
    exact ⟨rule.rhs.length, by rw [Analysis.rhs_eq hrule], (h _ _ _).mpr hr⟩

/-- What competes for the cell of a symbol at the end of a sequence, where nothing is left open. -/
structure Choices (g : Grammar) (path : List SymbolId) (s : SymbolId) (shift : Option Nat)
    (rules : List Nat) : Prop where
  next : ∀ k, shift = some k → At g.analysis k (path ++ [s])
  canShift : shift.isSome = true ↔ CanShift g.analysis path s
  canReduce : ∀ i, i ∈ rules ↔ CanReduce g.analysis path i s
  single : rules.length ≤ 1
  decided : shift.isSome = true → ∀ i rule, rules = [i] → g.rules[i]? = some rule →
    g.verdict s rule ≠ .undecided

namespace Choices

variable {shift : Option Nat} {rules : List Nat} (h : g.Choices path s shift rules)
include h

theorem rules_eq (hi : CanReduce g.analysis path i s) : rules = [i] := by
  have hmem := (h.canReduce i).mpr hi
  have hlen := List.length_pos_of_mem hmem
  obtain ⟨x, rfl⟩ := List.length_eq_one_iff.mp (Nat.le_antisymm h.single hlen)
  rw [List.mem_singleton.mp hmem]

theorem rules_eq_nil (hno : ∀ i, ¬ CanReduce g.analysis path i s) : rules = [] :=
  List.eq_nil_iff_forall_not_mem.mpr fun i hi => hno i ((h.canReduce i).mp hi)

theorem not_canReduce (hundecided : ∀ rule, g.verdict s rule = .undecided)
    (hs : CanShift g.analysis path s) (i : Nat) : ¬ CanReduce g.analysis path i s := by
  intro hi
  obtain ⟨rule, hrule, -⟩ := id hi
  exact h.decided (h.canShift.mpr hs) i rule (h.rules_eq hi) hrule (hundecided rule)

end Choices

theorem length_reduceRules_le (row : Row)
    (hno : ∀ s ∈ (row.set.reduceSymbols g.analysis).toList,
      (g.enterReduce g.analysis j row s).2.toList = []) (s : SymbolId) :
    (row.set.reduceRules g.analysis s).length ≤ 1 := by
  by_contra hmany
  have hmem : s ∈ (row.set.reduceSymbols g.analysis).toList := by
    rw [SymbolSet.mem_toList, ItemSet.contains_reduceSymbols]
    intro hnil
    simp [hnil] at hmany
  have hconflict := hno s hmem
  rw [(g.enterReduce_eq _ _ _ _).2.2, if_pos (by omega)] at hconflict
  cases hconflict

/-- The cell of a symbol is what is left of its choices. -/
theorem cell_of_at (hg : g.Built) (h : g.configure = (.ok (), g')) (hj : At g.analysis j path)
    (s : SymbolId) : ∃ shift rules, g.Choices path s shift rules ∧
      ((g'.state j).shift? s, (g'.state j).reduce? s) = g.settled s shift rules.getLast? := by
  obtain ⟨-, -, -, -, hstates, hnone⟩ := configure_ok h
  have ha := faithful_of_ok hg h
  have hpos : 0 < g.analysis.rules.length := hg.wellFormed.rules_pos
  obtain ⟨m, shifts, hm, hshifts, hspells, hnext⟩ := hj.shifts ha hpos
  have hsome := fun s => (hnext s).2
  obtain ⟨-, hcell, hconflicts⟩ := g.row_eq g.analysis j m.set hsome
  have hget := g.getElem?_rowsOf g.analysis hm hshifts
  have hempty := hnone _ (List.mem_of_getElem? hget)
  rw [hconflicts, List.append_eq_nil_iff, List.flatMap_eq_nil_iff, List.flatMap_eq_nil_iff]
    at hempty
  have hstate : g'.state j = (g.row g.analysis j m.set shifts).1.actions := by
    simp [state, hstates, List.getD_eq_getElem?_getD, hget]
  refine ⟨shifts.get? s, m.set.reduceRules g.analysis s, ⟨(hnext s).1, ?_, ?_, ?_, ?_⟩, ?_⟩
  · rw [hsome, hspells.contains_shiftSymbols]
    rfl
  · exact fun i => mem_reduceRules_iff hpos hspells
  · exact length_reduceRules_le { set := m.set, actions := { shifts } } hempty.1 s
  · intro hshift i rule hi hrule hundecided
    have hmem : s ∈ ((m.set.shiftSymbols g.analysis).inter
        (m.set.reduceSymbols g.analysis)).toList := by
      rw [SymbolSet.mem_toList, SymbolSet.contains_inter, Bool.and_eq_true,
        ItemSet.contains_reduceSymbols]
      exact ⟨(hsome s).mp hshift, by simp [hi]⟩
    have hno := hempty.2 s hmem
    simp [openConflict, entered, hi, hrule, hundecided] at hno
  · rw [hstate]
    exact hcell s

theorem tracks_of_ok (hg : g.Built) (h : g.configure = (.ok (), g')) : Tracks g' := by
  obtain ⟨-, hsymbols, -⟩ := configure_ok h
  have ha := faithful_of_ok hg h
  have he := analysis_of_ok h
  refine ⟨?_, fun {j path s k} hj hs => ?_, fun {j path s i} hj hs => ?_, fun {j path s} hj hs ht => ?_⟩
  · rw [he]
    exact at_zero ha hg.wellFormed.rules_pos
  · rw [he] at hj ⊢
    obtain ⟨shift, rules, hchoices, hcell⟩ := cell_of_at hg h hj s
    have hsome : shift = some k := settled_fst ((congrArg Prod.fst hcell).symm.trans hs)
    exact ⟨hchoices.next k hsome, hchoices.canShift.mp (by simp [hsome])⟩
  · rw [he] at hj ⊢
    obtain ⟨shift, rules, hchoices, hcell⟩ := cell_of_at hg h hj s
    have hlast : rules.getLast? = some i := settled_snd ((congrArg Prod.snd hcell).symm.trans hs)
    exact (hchoices.canReduce i).mp (List.mem_of_getLast? hlast)
  · rw [he] at hj hs
    obtain ⟨shift, rules, hchoices, hcell⟩ := cell_of_at hg h hj s
    obtain ⟨k, hk⟩ := Option.isSome_iff_exists.mp (hchoices.canShift.mpr hs)
    -- only terminals stand ahead of an item, so nothing is reduced before a nonterminal
    have hnil : rules = [] := by
      refine hchoices.rules_eq_nil fun i ⟨rule, _, hr⟩ => ?_
      have hterm : g.symbols.isTerminal s = true := hr.isTerminal ha
      rw [← hsymbols, ht] at hterm
      cases hterm
    rw [hnil, List.getLast?_nil, settled_of_none, hk] at hcell
    exact ⟨k, congrArg Prod.fst hcell⟩

theorem unrivalled_of_ok (hg : g.Built) (h : g.configure = (.ok (), g')) :
    Unrivalled g'.analysis := by
  rw [analysis_of_ok h]
  intro path s i i' hi hi'
  obtain ⟨_, _, hr⟩ := id hi
  obtain ⟨j, hj⟩ := exists_at (faithful_of_ok hg h) hg.wellFormed.rules_pos hr
  obtain ⟨shift, rules, hchoices, -⟩ := cell_of_at hg h hj s
  exact List.singleton_inj.mp ((hchoices.rules_eq hi).symm.trans (hchoices.rules_eq hi'))

theorem verdict_undecided (hprec : ∀ s, g.precedence? s = none) (hassoc : ∀ s, g.assoc? s = none)
    (s : SymbolId) (rule : Rule) : g.verdict s rule = .undecided := by
  simp [verdict, assocVerdict, hprec, hassoc]

/-- Without levels and associativities configuring succeeds only where there is no choice. -/
theorem exact_of_ok (hg : g.Built) (h : g.configure = (.ok (), g'))
    (hprec : ∀ s, g.precedence? s = none) (hassoc : ∀ s, g.assoc? s = none) : Exact g' := by
  have he := analysis_of_ok h
  have hundecided := verdict_undecided hprec hassoc
  refine ⟨tracks_of_ok hg h, fun {j path s} hj hs => ?_, fun {j path s i} hj hi => ?_, ?_,
    unrivalled_of_ok hg h⟩
  · rw [he] at hj hs
    obtain ⟨shift, rules, hchoices, hcell⟩ := cell_of_at hg h hj s
    obtain ⟨k, hk⟩ := Option.isSome_iff_exists.mp (hchoices.canShift.mpr hs)
    have hnil := hchoices.rules_eq_nil (hchoices.not_canReduce (hundecided s) hs)
    rw [hnil, List.getLast?_nil, settled_of_none, hk] at hcell
    exact ⟨k, congrArg Prod.fst hcell⟩
  · rw [he] at hj hi
    obtain ⟨shift, rules, hchoices, hcell⟩ := cell_of_at hg h hj s
    have hno : shift = none := by
      refine Option.not_isSome_iff_eq_none.mp fun hs => ?_
      exact hchoices.not_canReduce (hundecided s) (hchoices.canShift.mp hs) i hi
    rw [hchoices.rules_eq hi, hno] at hcell
    exact congrArg Prod.snd hcell
  · rw [he]
    intro path s i hs hi
    obtain ⟨_, _, _, hr, _⟩ := id hs
    obtain ⟨j, hj⟩ := exists_at (faithful_of_ok hg h) hg.wellFormed.rules_pos hr
    obtain ⟨shift, rules, hchoices, -⟩ := cell_of_at hg h hj s
    exact hchoices.not_canReduce (hundecided s) hs i hi

end CanonicalLR.Grammar

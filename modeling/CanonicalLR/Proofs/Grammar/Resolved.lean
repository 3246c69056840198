import CanonicalLR.Proofs.Grammar.Configured

/-! Grammars without conflicts. Configuring succeeds just where no terminal ever allows two
reductions, and levels or associativities decide wherever one allows a shift and a reduction. Where
the decision is always for one of the two, each cell of a state holds what it leaves. -/

namespace CanonicalLR.Grammar

open Collection

variable {g g' : Grammar} {path : List SymbolId} {s start : SymbolId} {i j : Nat}

/-- Nothing that competes for a cell is left undecided. -/
structure Clear (g : Grammar) : Prop where
  unrivalled : Unrivalled g.analysis
  decided : ∀ {path : List SymbolId} {s : SymbolId} {i : Nat} {rule : Rule},
    CanShift g.analysis path s → CanReduce g.analysis path i s → g.rules[i]? = some rule →
    g.verdict s rule ≠ .undecided

theorem Clear.length_reduceRules_le (h : g.Clear) (hpos : 0 < g.rules.length) {set : ItemSet}
    (htidy : set.Tidy) (hspells : set.Spells g.analysis path) (s : SymbolId) :
    (set.reduceRules g.analysis s).length ≤ 1 := by
  have hall : ∀ x ∈ set.items.filter fun it => it.canReduce g.analysis && it.follow.contains s,
      ∀ y ∈ set.items.filter fun it => it.canReduce g.analysis && it.follow.contains s, x = y := by
    intro x hx y hy
    simp only [List.mem_filter, Bool.and_eq_true, Item.canReduce, decide_eq_true_eq] at hx hy
    obtain ⟨hxmem, hxlen, hxs⟩ := hx
    obtain ⟨hymem, hylen, hys⟩ := hy
    have hxhas : set.Has x.rule x.dot (some s) :=
      ⟨x, hxmem, rfl, rfl, fun t ht => by cases ht; exact hxs⟩
    have hyhas : set.Has y.rule y.dot (some s) :=
      ⟨y, hymem, rfl, rfl, fun t ht => by cases ht; exact hys⟩
    have hxcan := (mem_reduceRules_iff hpos hspells).mp
      ((set.mem_reduceRules g.analysis s x.rule).mpr ⟨x.dot, hxlen, hxhas⟩)
    have hycan := (mem_reduceRules_iff hpos hspells).mp
      ((set.mem_reduceRules g.analysis s y.rule).mpr ⟨y.dot, hylen, hyhas⟩)
    have hrule : x.rule = y.rule := h.unrivalled _ _ _ _ hxcan hycan
    have hxle := (((hspells _ _ _).mp hxhas).within hpos).2
    have hyle := (((hspells _ _ _).mp hyhas).within hpos).2
    rw [← hrule] at hylen hyle
    exact htidy.eq_of_position hxmem hymem hrule (by omega)
  have hnodup := (htidy.nodup).filter fun it => it.canReduce g.analysis && it.follow.contains s
  rw [ItemSet.reduceRules, List.length_map]
  generalize set.items.filter _ = items at hall hnodup
  by_contra hmany
  have hlt : 1 < items.length := Nat.not_le.mp hmany
  have he := hall _ (List.getElem_mem (Nat.zero_lt_of_lt hlt)) _ (List.getElem_mem hlt)
  exact absurd (hnodup.getElem_inj_iff.mp he) Nat.zero_ne_one

theorem Clear.conflicts_eq_nil (h : g.Clear) (hg : g.Built) (hv : g.Valid start) :
    ∀ found ∈ g.rowsOf g.analysis (.of g.analysis), found.2 = [] := by
  have ha := hg.wellFormed.faithful hv
  have hpos : 0 < g.analysis.rules.length := hg.wellFormed.rules_pos
  obtain ⟨hexplored, -⟩ := explored_of ha hpos
  intro found hmem
  obtain ⟨j, hj⟩ := List.mem_iff_getElem?.mp hmem
  have hlt : j < (of g.analysis).members.length := by
    rw [← length_rowsOf hg hv]
    exact (List.getElem?_eq_some_iff.mp hj).1
  obtain ⟨path, hpath⟩ := hexplored.gathered.spells _ (List.getElem_mem hlt)
  have hat : At g.analysis j path := ⟨_, List.getElem?_eq_getElem hlt, hpath⟩
  obtain ⟨m, shifts, hm, hshifts, hspells, hnext⟩ := hat.shifts ha hpos
  have htidy := hexplored.gathered.tidy m (List.mem_of_getElem? hm)
  rw [g.getElem?_rowsOf g.analysis hm hshifts, Option.some.injEq] at hj
  rw [← hj, (g.row_eq g.analysis j _ fun s => (hnext s).2).2.2, List.append_eq_nil_iff,
    List.flatMap_eq_nil_iff, List.flatMap_eq_nil_iff]
  refine ⟨fun s _ => ?_, fun s hs => ?_⟩
  · have hone := h.length_reduceRules_le hpos htidy hspells s
    rw [(g.enterReduce_eq _ _ _ _).2.2, if_neg (Nat.not_lt.mpr hone)]
    rfl
  · rw [SymbolSet.mem_toList, SymbolSet.contains_inter, Bool.and_eq_true,
      hspells.contains_shiftSymbols] at hs
    have hopen : g.openConflict j s (entered g.analysis m.set s) = none := by
      cases hindex : entered g.analysis m.set s with
      | none => rfl
      | some index =>
        have hcan := (mem_reduceRules_iff hpos hspells).mp (List.mem_of_getLast? hindex)
        obtain ⟨rule, hrule, -⟩ := id hcan
        have hrule' : g.rules[index]? = some rule := hrule
        simp [openConflict, hrule', h.decided hs.1 hcan hrule']
    rw [hopen]
    rfl

theorem Clear.configure (h : g.Clear) (hg : g.Built) (hv : g.Valid start) :
    ∃ g', g.configure = (.ok (), g') ∧ g'.conflicts = [] := by
  have hnone : ((g.reset.rowsOf g.reset.analysis (.of g.reset.analysis)).flatMap
      (·.2)).isEmpty = true := by
    rw [List.isEmpty_iff, List.flatMap_eq_nil_iff]
    exact h.conflicts_eq_nil hg hv
  refine ⟨g.configure.2, ?_⟩
  simp only [Grammar.configure, g.validate_ok.mpr ⟨start, hv⟩, build, hnone, if_true, and_self]

/-- Configuring succeeds for the valid grammars in which nothing is left undecided. -/
theorem configure_ok_iff (hg : g.Built) :
    g.configure.1 = .ok () ↔ (∃ start, g.Valid start) ∧ g.Clear := by
  constructor
  · intro hok
    have h : g.configure = (.ok (), g.configure.2) := Prod.ext hok rfl
    obtain ⟨hvalid, -⟩ := configure_ok h
    refine ⟨hvalid, analysis_of_ok h ▸ unrivalled_of_ok hg h, ?_⟩
    intro path s i rule hs hi hrule
    obtain ⟨_, _, _, hr, -⟩ := id hs
    obtain ⟨j, hj⟩ := exists_at (faithful_of_ok hg h) hg.wellFormed.rules_pos hr
    obtain ⟨shift, rules, hchoices, -⟩ := cell_of_at hg h hj s
    exact hchoices.decided (hchoices.canShift.mpr hs) i rule (hchoices.rules_eq hi) hrule
  · rintro ⟨⟨start, hv⟩, hclear⟩
    obtain ⟨g', h, -⟩ := hclear.configure hg hv
    rw [h]

theorem configured_eq (h : g.configure = (.ok (), g')) : g.configured = .ok g' := by
  rw [configured, h]

/-- Wherever a shift and a reduction compete, one of them wins. -/
structure Resolved (g : Grammar) : Prop where
  unrivalled : Unrivalled g.analysis
  decided : ∀ {path : List SymbolId} {s : SymbolId} {i : Nat} {rule : Rule},
    CanShift g.analysis path s → CanReduce g.analysis path i s → g.rules[i]? = some rule →
    g.verdict s rule = .shift ∨ g.verdict s rule = .reduce

theorem Resolved.clear (h : g.Resolved) : g.Clear where
  unrivalled := h.unrivalled
  decided hs hi hrule hundecided := by
    rcases h.decided hs hi hrule with hverdict | hverdict <;> cases hverdict.symm.trans hundecided

/-- What a state does before a symbol, and why. -/
inductive Cell (g : Grammar) (state : State) (path : List SymbolId) (s : SymbolId) : Prop where
  | shift {k : Nat} : state.shift? s = some k → CanShift g.analysis path s →
      (∀ i rule, CanReduce g.analysis path i s → g.rules[i]? = some rule →
        g.verdict s rule = .shift) → Cell g state path s
  | reduce {i : Nat} {rule : Rule} : state.shift? s = none → state.reduce? s = some i →
      CanReduce g.analysis path i s → g.rules[i]? = some rule →
      (CanShift g.analysis path s → g.verdict s rule = .reduce) → Cell g state path s
  | stuck : state.shift? s = none → state.reduce? s = none →
      ¬ CanShift g.analysis path s → (∀ i, ¬ CanReduce g.analysis path i s) → Cell g state path s

theorem Resolved.cell (h : g.Resolved) (hg : g.Built) (hok : g.configure = (.ok (), g'))
    (hj : At g.analysis j path) (s : SymbolId) : Cell g (g'.state j) path s := by
  obtain ⟨shift, rules, hchoices, hcell⟩ := cell_of_at hg hok hj s
  have hshift : (g'.state j).shift? s = (g.settled s shift rules.getLast?).1 :=
    congrArg Prod.fst hcell
  have hreduce : (g'.state j).reduce? s = (g.settled s shift rules.getLast?).2 :=
    congrArg Prod.snd hcell
  by_cases hi : ∃ i, CanReduce g.analysis path i s
  · obtain ⟨i, hi⟩ := hi
    obtain ⟨rule, hrule, -⟩ := id hi
    have hrule' : g.rules[i]? = some rule := hrule
    rw [hchoices.rules_eq hi, List.getLast?_singleton] at hshift hreduce
    cases hs : shift with
    | none =>
      have hcan : ¬ CanShift g.analysis path s := by simp [← hchoices.canShift, hs]
      rw [hs] at hshift hreduce
      exact .reduce hshift hreduce hi hrule' fun hcan' => absurd hcan' hcan
    | some k =>
      have hcan : CanShift g.analysis path s := hchoices.canShift.mp (by simp [hs])
      rcases h.decided hcan hi hrule' with hverdict | hverdict
      · refine .shift (k := k) (hshift.trans ?_) hcan fun i' rule' hi' hr' => ?_
        · simp [hs, settled, settle, hrule', hverdict]
        · obtain rfl := h.unrivalled _ _ _ _ hi' hi
          obtain rfl := Option.some.inj (hrule'.symm.trans hr')
          exact hverdict
      · refine .reduce (hshift.trans ?_) (hreduce.trans ?_) hi hrule' fun _ => hverdict
        · simp [hs, settled, settle, hrule', hverdict]
        · simp [hs, settled, settle, hrule', hverdict]
  · have hno : ∀ i, ¬ CanReduce g.analysis path i s := fun i hi' => hi ⟨i, hi'⟩
    rw [hchoices.rules_eq_nil hno, List.getLast?_nil, settled_of_none] at hshift hreduce
    cases hs : shift with
    | none =>
      have hcan : ¬ CanShift g.analysis path s := by simp [← hchoices.canShift, hs]
      exact .stuck (hshift.trans hs) hreduce hcan hno
    | some k =>
      have hcan : CanShift g.analysis path s := hchoices.canShift.mp (by simp [hs])
      exact .shift (hshift.trans hs) hcan fun i _ hi' => absurd hi' (hno i)

end CanonicalLR.Grammar

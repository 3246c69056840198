import CanonicalLR.Proofs.Grammar.Configured

/-! What configuring decides, cell by cell, whether or not conflicts are left. Levels and
associativities rule over each pair of a shift and a reduction; the conflicts are listed with the
symbol and the state that they belong to, each of them once, and there are no others. -/

theorem List.filter_flatMap_of_getElem? {α β : Type*} {l : List α} {f : α → List β} {p : β → Bool}
    {j : ℕ} {x : α} (hx : l[j]? = some x)
    (hother : ∀ i y, l[i]? = some y → i ≠ j → ∀ c ∈ f y, p c = false) :
    (l.flatMap f).filter p = (f x).filter p := by
  obtain ⟨hj, rfl⟩ := List.getElem?_eq_some_iff.mp hx
  have hfront : ((l.take j).flatMap f).filter p = [] := by
    refine List.filter_eq_nil_iff.mpr fun c hc => ?_
    obtain ⟨y, hy, hc⟩ := List.mem_flatMap.mp hc
    obtain ⟨i, hi, rfl⟩ := List.mem_take_iff_getElem.mp hy
    simp [hother i _ (List.getElem?_eq_getElem (by omega)) (by omega) c hc]
  have hback : ((l.drop (j + 1)).flatMap f).filter p = [] := by
    refine List.filter_eq_nil_iff.mpr fun c hc => ?_
    obtain ⟨y, hy, hc⟩ := List.mem_flatMap.mp hc
    obtain ⟨i, hi, rfl⟩ := List.mem_drop_iff_getElem.mp hy
    have hi' : j + 1 + i < l.length := by omega
    simp [hother _ _ (List.getElem?_eq_getElem hi') (by omega) c hc]
  have hsplit : l = l.take j ++ l[j] :: l.drop (j + 1) := by
    rw [← List.drop_eq_getElem_cons hj, List.take_append_drop]
  conv_lhs => rw [hsplit]
  rw [List.flatMap_append, List.flatMap_cons, List.filter_append, List.filter_append, hfront, hback,
    List.nil_append, List.append_nil]

namespace CanonicalLR

open Collection

/-- The rules of the items that are complete before the symbol, in the order of the items. -/
def ItemSet.complete (set : ItemSet) (a : Analysis) (s : SymbolId) : List Nat :=
  (set.items.filter fun it => it.dot = (a.rhs it.rule).length ∧ it.follow.contains s = true).map
    (·.rule)

theorem ItemSet.reduceRules_eq {set : ItemSet} {a : Analysis}
    (h : ∀ it ∈ set.items, it.dot ≤ (a.rhs it.rule).length) (s : SymbolId) :
    set.reduceRules a s = set.complete a s := by
  refine congrArg (List.map Item.rule) (List.filter_congr fun it hit => ?_)
  have hle := h it hit
  rw [Item.canReduce, Bool.decide_and, Bool.decide_eq_true]
  exact congrArg (· && _) (decide_eq_decide.mpr (by omega))

/-- What a verdict leaves of a shift and a reduction. -/
def Verdict.left (next i : Nat) : Verdict → Option Nat × Option Nat
  | shift => (some next, none)
  | reduce => (none, some i)
  | neither => (none, none)
  | undecided => (some next, some i)

namespace Grammar

variable {g : Grammar} {s : SymbolId} {rule : Rule} {v : Verdict} {shift reduce : Option Nat}

/-! Shifts against reductions. -/

/-- The symbol and the rule have the same level. -/
def Level (g : Grammar) (s : SymbolId) (rule : Rule) : Prop :=
  ∃ level, g.precedence? s = some level ∧ g.rulePrecedence? rule = some level

/-- Neither the symbol nor the rule has a higher level than the other. -/
def Unranked (g : Grammar) (s : SymbolId) (rule : Rule) : Prop :=
  ∀ shift reduce, g.precedence? s = some shift → g.rulePrecedence? rule = some reduce →
    shift = reduce

/-- What decides between shifting the symbol and reducing by the rule. -/
inductive Ruling (g : Grammar) (s : SymbolId) (rule : Rule) : Verdict → Prop where
  | above {shift reduce : Int} : g.precedence? s = some shift →
      g.rulePrecedence? rule = some reduce → reduce < shift → Ruling g s rule .shift
  | below {shift reduce : Int} : g.precedence? s = some shift →
      g.rulePrecedence? rule = some reduce → shift < reduce → Ruling g s rule .reduce
  | assoc {assoc : Assoc} : g.Unranked s rule → g.assoc? s = some assoc →
      g.Level s rule ∨ g.symbols.lastTerminal? rule.rhs = some s → Ruling g s rule assoc.verdict
  | undecided : g.Unranked s rule →
      (∀ assoc, g.assoc? s = some assoc →
        ¬ (g.Level s rule ∨ g.symbols.lastTerminal? rule.rhs = some s)) →
      Ruling g s rule .undecided

theorem ruling_assocVerdict {equal : Bool} (h : g.Unranked s rule)
    (hequal : equal = true ↔ g.Level s rule) : Ruling g s rule (g.assocVerdict s rule equal) := by
  have hif : (equal || g.symbols.lastTerminal? rule.rhs == some s) = true ↔
      (g.Level s rule ∨ g.symbols.lastTerminal? rule.rhs = some s) := by
    rw [Bool.or_eq_true, hequal, beq_iff_eq]
  rw [assocVerdict]
  cases hassoc : g.assoc? s with
  | none => exact .undecided h fun assoc hsome => by cases hassoc.symm.trans hsome
  | some assoc =>
    simp only
    split_ifs with hgroup
    · exact .assoc h hassoc (hif.mp hgroup)
    · exact .undecided h fun _ _ => fun hor => hgroup (hif.mpr hor)

theorem ruling_verdict (g : Grammar) (s : SymbolId) (rule : Rule) :
    Ruling g s rule (g.verdict s rule) := by
  rw [verdict]
  split
  · next shift reduce hshift hreduce =>
    split_ifs with hlt hgt
    · exact .above hshift hreduce hlt
    · exact .below hshift hreduce hgt
    · obtain rfl : shift = reduce := by omega
      refine ruling_assocVerdict ?_ (iff_of_true rfl ⟨shift, hshift, hreduce⟩)
      intro a b ha hb
      exact (Option.some.inj (ha.symm.trans hshift)).trans
        (Option.some.inj (hreduce.symm.trans hb))
  · next hnone =>
    refine ruling_assocVerdict (fun a b ha hb => (hnone a b ha hb).elim)
      (iff_of_false Bool.false_ne_true ?_)
    rintro ⟨level, ha, hb⟩
    exact hnone level level ha hb

/-- What is left of a shift and of the last complete rule in a cell, and whether the two are in
conflict. -/
inductive Leaves (g : Grammar) (s : SymbolId) : Option Nat → Option Nat →
    Option Nat × Option Nat → Option (Nat × Rule) → Prop where
  | one {shift reduce : Option Nat} : shift = none ∨ reduce = none →
      Leaves g s shift reduce (shift, reduce) none
  | both {next i : Nat} {rule : Rule} {v : Verdict} : g.rules[i]? = some rule →
      Ruling g s rule v → Leaves g s (some next) (some i) (v.left next i)
        (if v = .undecided then some (i, rule) else none)

theorem settled_eq {next i : Nat} (hi : g.rules[i]? = some rule) :
    g.settled s (some next) (some i) = (g.verdict s rule).left next i := by
  simp only [settled, Option.isSome_some, if_true, settle, Option.bind_some, hi]
  cases g.verdict s rule <;> rfl

/-- What is left of every cell, with the conflict that is listed for it. -/
theorem exists_leaves (shift : Option Nat)
    (hrule : ∀ i, reduce = some i → ∃ rule, g.rules[i]? = some rule) (state : Nat) :
    ∃ contested, Leaves g s shift reduce (g.settled s shift reduce) contested ∧
      (if shift.isSome then (g.openConflict state s reduce).toList else []) =
        contested.toList.map fun (i, rule) =>
          .shiftReduce state (g.symbols.name s) i (rule.text g.symbols) := by
  cases shift with
  | none => exact ⟨none, .one (.inl rfl), rfl⟩
  | some next =>
    cases reduce with
    | none => exact ⟨none, .one (.inr rfl), rfl⟩
    | some i =>
      obtain ⟨rule, hi⟩ := hrule i rfl
      refine ⟨if g.verdict s rule = .undecided then some (i, rule) else none, ?_, ?_⟩
      · rw [settled_eq hi]
        exact .both hi (g.ruling_verdict s rule)
      · simp only [openConflict, Option.bind_some, hi, Option.isSome_some, if_true]
        split_ifs <;> rfl

/-! The conflicts of one row. -/

section Row

variable {state : Nat} {set : ItemSet} {shifts : SymbolMap Nat} {path : List SymbolId}

/-- The conflict of the complete rules before a symbol, if there are several. -/
def rivalry (g : Grammar) (state : Nat) (s : SymbolId) (rules : List Nat) : List Conflict :=
  if 1 < rules.length then [.reduceReduce state (g.symbols.name s) rules] else []

theorem symbol_of_mem_rivalry {rules : List Nat} {c : Conflict} (h : c ∈ g.rivalry state s rules) :
    c.state = state ∧ c.symbol = g.symbols.name s := by
  rw [rivalry] at h
  split_ifs at h
  · obtain rfl := List.mem_singleton.mp h
    exact ⟨rfl, rfl⟩
  · cases h

theorem toList_enterReduce (g : Grammar) (a : Analysis) (row : Row) (s : SymbolId) :
    (g.enterReduce a state row s).2.toList = g.rivalry state s (row.set.reduceRules a s) := by
  rw [(g.enterReduce_eq _ _ _ _).2.2, rivalry]
  split_ifs <;> rfl

theorem of_mem_openConflict {c : Conflict} (h : c ∈ (g.openConflict state s reduce).toList) :
    ∃ i rule, g.rules[i]? = some rule ∧
      c = .shiftReduce state (g.symbols.name s) i (rule.text g.symbols) := by
  cases reduce with
  | none => cases h
  | some i =>
    cases hrule : g.rules[i]? with
    | none => simp [openConflict, hrule] at h
    | some rule =>
      simp only [openConflict, Option.bind_some, hrule] at h
      split_ifs at h
      · exact ⟨i, rule, hrule, List.mem_singleton.mp h⟩
      · cases h

theorem symbol_of_mem_openConflict {c : Conflict}
    (h : c ∈ (g.openConflict state s reduce).toList) :
    c.state = state ∧ c.symbol = g.symbols.name s := by
  obtain ⟨i, rule, -, rfl⟩ := of_mem_openConflict h
  exact ⟨rfl, rfl⟩

theorem filter_symbol {f : SymbolId → List Conflict} {ids : SymbolSet}
    (hf : ∀ t, ∀ c ∈ f t, c.symbol = g.symbols.name t)
    (hname : ∀ t, ids.contains t = true → g.symbols.name t = g.symbols.name s → t = s) :
    (ids.toList.flatMap f).filter (·.symbol = g.symbols.name s) =
      if ids.contains s then f s else [] := by
  have hall : (f s).filter (·.symbol = g.symbols.name s) = f s :=
    List.filter_eq_self.mpr fun c hc => by simp [hf s c hc]
  have hother : ∀ t ∈ ids.toList, t ≠ s → ∀ c ∈ f t, decide (c.symbol = g.symbols.name s) = false := by
    intro t ht hne c hc
    rw [decide_eq_false_iff_not, hf t c hc]
    exact fun heq => hne (hname t (SymbolSet.mem_toList.mp ht) heq)
  split_ifs with hs
  · obtain ⟨j, hj⟩ := List.mem_iff_getElem?.mp (SymbolSet.mem_toList.mpr hs)
    rw [List.filter_flatMap_of_getElem? hj, hall]
    intro i t hi hne
    refine hother t (List.mem_of_getElem? hi) ?_
    rintro rfl
    exact hne ((List.getElem?_inj (List.getElem?_eq_some_iff.mp hi).1 ids.toList_nodup).mp
      (hi.trans hj.symm))
  · refine List.filter_eq_nil_iff.mpr fun c hc => ?_
    obtain ⟨t, ht, hc⟩ := List.mem_flatMap.mp hc
    have hne : t ≠ s := by
      rintro rfl
      exact hs (SymbolSet.mem_toList.mp ht)
    simp [hother t ht hne c hc]

theorem isTerminal_of_mem_reduceSymbols (ha : g.analysis.Faithful)
    (hspells : set.Spells g.analysis path)
    (hs : (set.reduceSymbols g.analysis).contains s = true) : g.symbols.isTerminal s = true := by
  rw [ItemSet.contains_reduceSymbols] at hs
  obtain ⟨i, hi⟩ := List.exists_mem_of_ne_nil _ hs
  obtain ⟨d, -, hhas⟩ := (set.mem_reduceRules _ _ _).mp hi
  exact ((hspells i d _).mp hhas).isTerminal ha

theorem complete_eq (hpos : 0 < g.rules.length) (hspells : set.Spells g.analysis path)
    (s : SymbolId) : set.reduceRules g.analysis s = set.complete g.analysis s :=
  ItemSet.reduceRules_eq (fun it hit =>
    (((hspells it.rule it.dot none).mp ⟨it, hit, rfl, rfl, by simp⟩).within hpos).2) s

theorem mem_shiftSymbols_iff (set : ItemSet) (s : SymbolId) :
    (set.shiftSymbols g.analysis).contains s = true ↔
      ∃ it ∈ set.items, (g.analysis.rhs it.rule)[it.dot]? = some s := by
  rw [ItemSet.contains_shiftSymbols]
  constructor
  · rintro ⟨i, d, ⟨it, hit, rfl, rfl, -⟩, hdot⟩
    exact ⟨it, hit, hdot⟩
  · rintro ⟨it, hit, hdot⟩
    exact ⟨it.rule, it.dot, ⟨it, hit, rfl, rfl, by simp⟩, hdot⟩

variable (hg : g.Built) (hspells : set.Spells g.analysis path)
  (hs : ∀ s, (shifts.get? s).isSome = true ↔ (set.shiftSymbols g.analysis).contains s = true)
include hg hspells hs

theorem conflicts_row (state : Nat) : (g.row g.analysis state set shifts).2 =
    ((set.reduceSymbols g.analysis).toList.flatMap fun s =>
      g.rivalry state s (set.complete g.analysis s)) ++
    ((set.shiftSymbols g.analysis).inter (set.reduceSymbols g.analysis)).toList.flatMap fun s =>
      (g.openConflict state s (set.complete g.analysis s).getLast?).toList := by
  have hpos : 0 < g.rules.length := hg.wellFormed.rules_pos
  simp only [(g.row_eq g.analysis state set hs).2.2, toList_enterReduce, entered,
    complete_eq hpos hspells]

variable (ha : g.analysis.Faithful)
include ha

theorem state_of_mem_row {c : Conflict} (hc : c ∈ (g.row g.analysis state set shifts).2) :
    c.state = state ∧ ∃ s, g.symbols.Registered s ∧ c.symbol = g.symbols.name s := by
  rw [conflicts_row hg hspells hs, List.mem_append, List.mem_flatMap, List.mem_flatMap] at hc
  have hregistered := fun s hmem => Registry.registered_of_isTerminal
    (isTerminal_of_mem_reduceSymbols (s := s) ha hspells hmem)
  rcases hc with ⟨s, hmem, hc⟩ | ⟨s, hmem, hc⟩
  · obtain ⟨hstate, hsymbol⟩ := symbol_of_mem_rivalry hc
    exact ⟨hstate, s, hregistered s (SymbolSet.mem_toList.mp hmem), hsymbol⟩
  · obtain ⟨hstate, hsymbol⟩ := symbol_of_mem_openConflict hc
    rw [SymbolSet.mem_toList, SymbolSet.contains_inter, Bool.and_eq_true] at hmem
    exact ⟨hstate, s, hregistered s hmem.2, hsymbol⟩

theorem filter_row (state : Nat) (hregistered : g.symbols.Registered s) :
    (g.row g.analysis state set shifts).2.filter (·.symbol = g.symbols.name s) =
      g.rivalry state s (set.complete g.analysis s) ++
        if (shifts.get? s).isSome then
          (g.openConflict state s (set.complete g.analysis s).getLast?).toList
        else [] := by
  have hpos : 0 < g.rules.length := hg.wellFormed.rules_pos
  have hname : ∀ t, (set.reduceSymbols g.analysis).contains t = true →
      g.symbols.name t = g.symbols.name s → t = s := fun t ht =>
    hg.symbols_built.distinct.eq_of_name (Registry.registered_of_isTerminal
      (isTerminal_of_mem_reduceSymbols ha hspells ht)) hregistered
  rw [conflicts_row hg hspells hs, List.filter_append,
    filter_symbol (fun t c hc => (symbol_of_mem_rivalry hc).2) hname,
    filter_symbol (fun t c hc => (symbol_of_mem_openConflict hc).2) fun t ht => hname t (by
      rw [SymbolSet.contains_inter, Bool.and_eq_true] at ht
      exact ht.2)]
  have hreducing := set.contains_reduceSymbols g.analysis s
  rw [complete_eq hpos hspells] at hreducing
  by_cases hnil : set.complete g.analysis s = []
  · simp [hreducing, hnil, rivalry, openConflict]
  · simp [hreducing, hnil, hs]

theorem row_leaves (state : Nat) (s : SymbolId) : ∃ contested,
    Leaves g s (shifts.get? s) (set.complete g.analysis s).getLast?
      ((g.row g.analysis state set shifts).1.cell s) contested ∧
    (g.symbols.Registered s →
      (g.row g.analysis state set shifts).2.filter (·.symbol = g.symbols.name s) =
        g.rivalry state s (set.complete g.analysis s) ++ contested.toList.map fun (i, rule) =>
          .shiftReduce state (g.symbols.name s) i (rule.text g.symbols)) := by
  have hpos : 0 < g.rules.length := hg.wellFormed.rules_pos
  have hrule : ∀ i, (set.complete g.analysis s).getLast? = some i →
      ∃ rule, g.rules[i]? = some rule := by
    intro i hi
    have hmem := List.mem_of_getLast? hi
    rw [← complete_eq hpos hspells, mem_reduceRules_iff hpos hspells] at hmem
    exact hmem.imp fun _ h => h.1
  obtain ⟨contested, hleaves, hopen⟩ := exists_leaves (shifts.get? s) hrule state
  refine ⟨contested, ?_, fun hregistered => ?_⟩
  · rw [(g.row_eq g.analysis state set hs).2.1, entered, complete_eq hpos hspells]
    exact hleaves
  · rw [filter_row hg hspells hs ha state hregistered, hopen]

end Row

/-! All rows. -/

theorem configure_conflicts (hv : g.validate = .ok ()) :
    g.configure.2.conflicts = (g.rowsOf g.analysis (.of g.analysis)).flatMap (·.2) ∧
      (g.configure.1 = if g.configure.2.conflicts = [] then .ok ()
        else .error (.conflicts g.configure.2.conflicts)) ∧
      g.configure.2.states = if g.configure.2.conflicts = [] then
        g.configure.2.rows.map (·.actions) else [] := by
  have hbuild : g.configure = g.reset.build := by rw [configure, hv]
  have hrows : g.reset.rowsOf g.reset.analysis (.of g.reset.analysis) =
    g.rowsOf g.analysis (.of g.analysis) := rfl
  rw [hbuild, build, hrows]
  by_cases hnone : (g.rowsOf g.analysis (.of g.analysis)).flatMap (·.2) = []
  · simp [hnone]
  · simp [hnone]

theorem exists_member (hg : g.Built) (hv : g.validate = .ok ()) {j : Nat} {row : Row}
    (hrow : g.configure.2.rows[j]? = some row) :
    ∃ (m : Member) (shifts : SymbolMap Nat) (path : List SymbolId),
      (g.rowsOf g.analysis (.of g.analysis))[j]? = some (g.row g.analysis j m.set shifts) ∧
      row = (g.row g.analysis j m.set shifts).1 ∧ row.set = m.set ∧
      m.set.Spells g.analysis path ∧
      (∀ s, (shifts.get? s).isSome = true ↔ (m.set.shiftSymbols g.analysis).contains s = true) ∧
      ∀ s k, shifts.get? s = some k → ∃ next, g.configure.2.rows[k]? = some next ∧
        next.set.same (m.set.goto g.analysis s) = true := by
  obtain ⟨start, hvalid⟩ := g.validate_ok.mp hv
  have ha := hg.wellFormed.faithful hvalid
  have hpos : 0 < g.analysis.rules.length := hg.wellFormed.rules_pos
  obtain ⟨hexplored, -⟩ := explored_of ha hpos
  have hj : j < (of g.analysis).members.length := by
    rw [← length_rows hg hv]
    exact (List.getElem?_eq_some_iff.mp hrow).1
  obtain ⟨m, hm⟩ : ∃ m, (of g.analysis).members[j]? = some m := ⟨_, List.getElem?_eq_getElem hj⟩
  obtain ⟨path, hspells⟩ := hexplored.gathered.spells m (List.mem_of_getElem? hm)
  obtain ⟨shifts, hshifts, hs, hrow', hset⟩ := row_of_member hg hv hm
  obtain rfl := Option.some.inj (hrow.symm.trans hrow')
  refine ⟨m, shifts, path, g.getElem?_rowsOf g.analysis hm hshifts, rfl, hset, hspells, hs, ?_⟩
  intro s k hk
  have hfollowed := hexplored.followed j m shifts hm hshifts
  have hmem : s ∈ (m.set.shiftSymbols g.analysis).toList := by
    rw [SymbolSet.mem_toList, ← hs, hk]
    rfl
  obtain ⟨k', next, hk', hnext, hsame⟩ := hfollowed.hit s hmem
  obtain rfl := Option.some.inj (hk.symm.trans hk')
  obtain ⟨_, -, -, hrow'', hset'⟩ := row_of_member hg hv hnext
  exact ⟨_, hrow'', by rwa [hset']⟩

/-- The conflicts are listed with the row that they belong to. -/
theorem state_of_mem_rowsOf (hg : g.Built) (hv : g.validate = .ok ()) {i : Nat}
    {found : Row × List Conflict}
    (hfound : (g.rowsOf g.analysis (.of g.analysis))[i]? = some found) {c : Conflict}
    (hc : c ∈ found.2) : c.state = i ∧ ∃ s, g.symbols.Registered s ∧ c.symbol = g.symbols.name s := by
  obtain ⟨start, hvalid⟩ := g.validate_ok.mp hv
  have hrow : g.configure.2.rows[i]? = some found.1 := by
    rw [configure_rows hv, List.getElem?_map, hfound, Option.map_some]
  obtain ⟨m, shifts, path, hfound', -, -, hspells, hs, -⟩ := exists_member hg hv hrow
  obtain rfl := Option.some.inj (hfound.symm.trans hfound')
  exact state_of_mem_row hg hspells hs (hg.wellFormed.faithful hvalid) hc

/-- Configuring settles every cell, and it lists every conflict that is left, once. -/
theorem configure_settles (hg : g.Built) (hv : g.validate = .ok ()) :
    (g.configure.1 = if g.configure.2.conflicts = [] then .ok ()
      else .error (.conflicts g.configure.2.conflicts)) ∧
    (g.configure.2.states =
      if g.configure.2.conflicts = [] then g.configure.2.rows.map (·.actions) else []) ∧
    (∀ c ∈ g.configure.2.conflicts, c.state < g.configure.2.rows.length ∧
      ∃ s, g.symbols.Registered s ∧ c.symbol = g.symbols.name s) ∧
    ∀ j row, g.configure.2.rows[j]? = some row → ∀ s, ∃ shift contested,
      (shift.isSome = true ↔ ∃ it ∈ row.set.items, (g.analysis.rhs it.rule)[it.dot]? = some s) ∧
      (∀ k, shift = some k → ∃ next, g.configure.2.rows[k]? = some next ∧
        next.set.same (row.set.goto g.analysis s) = true) ∧
      Leaves g s shift (row.set.complete g.analysis s).getLast? (row.cell s) contested ∧
      (g.symbols.Registered s →
        g.configure.2.conflicts.filter (fun c => c.state = j ∧ c.symbol = g.symbols.name s) =
          g.rivalry j s (row.set.complete g.analysis s) ++ contested.toList.map fun (i, rule) =>
            .shiftReduce j (g.symbols.name s) i (rule.text g.symbols)) := by
  obtain ⟨start, hvalid⟩ := g.validate_ok.mp hv
  have ha := hg.wellFormed.faithful hvalid
  obtain ⟨hconflicts, hresult, hstates⟩ := configure_conflicts hv
  refine ⟨hresult, hstates, fun c hc => ?_, fun j row hrow s => ?_⟩
  · rw [hconflicts] at hc
    obtain ⟨found, hmem, hc⟩ := List.mem_flatMap.mp hc
    obtain ⟨i, hi⟩ := List.mem_iff_getElem?.mp hmem
    obtain ⟨rfl, hsymbol⟩ := state_of_mem_rowsOf hg hv hi hc
    refine ⟨?_, hsymbol⟩
    rw [configure_rows hv, List.length_map]
    exact (List.getElem?_eq_some_iff.mp hi).1
  · obtain ⟨m, shifts, path, hfound, rfl, hset, hspells, hs, hnext⟩ := exists_member hg hv hrow
    rw [hset]
    obtain ⟨contested, hleaves, hfilter⟩ := row_leaves hg hspells hs ha j s
    refine ⟨shifts.get? s, contested, ?_, hnext s, hleaves, fun hregistered => ?_⟩
    · rw [hs, mem_shiftSymbols_iff]
    · rw [← hfilter hregistered, hconflicts, List.filter_flatMap_of_getElem? hfound]
      · refine List.filter_congr fun c hc => ?_
        simp [(state_of_mem_rowsOf hg hv hfound hc).1]
      · intro i found hi hne c hc
        simp [(state_of_mem_rowsOf hg hv hi hc).1, hne]

/-- The grammar `S → S S` and `S → x`, where nothing says which two come together first. -/
def doubled : Grammar :=
  (((new chainSymbols).setStart 2).addRule { id := 1, lhs := 2, rhs := [2, 2] }).addRule
    { id := 2, lhs := 2, rhs := [3] }

theorem doubled_built : doubled.Built := by
  refine .addRule (.addRule (.setStart (.new chainSymbols_built) ?_) ?_) ?_
  · decide +kernel
  · decide +kernel
  · decide +kernel

theorem doubled_configure_settles :
    doubled.configure.1 = .error (.conflicts doubled.configure.2.conflicts) ∧
      ∃ shift contested, Leaves doubled 3 shift (some 1) (some 2, some 1) contested ∧
        doubled.configure.2.conflicts.filter (fun c => c.state = 3 ∧ c.symbol = "x") =
          contested.toList.map fun (i, rule) => .shiftReduce 3 "x" i (rule.text doubled.symbols) := by
  have hv : doubled.validate = .ok () := by decide +kernel
  have hne : doubled.configure.2.conflicts ≠ [] := by decide +kernel
  have hthird : doubled.configure.2.rows[3]?.map
      (fun row => (row.cell 3, row.set.complete doubled.analysis 3)) =
        some ((some 2, some 1), [1]) := by decide +kernel
  have hname : doubled.symbols.Registered 3 ∧ doubled.symbols.name 3 = "x" := by decide +kernel
  obtain ⟨row, hrow, hcell⟩ := Option.map_eq_some_iff.mp hthird
  obtain ⟨hcell, hrules⟩ := Prod.mk.inj hcell
  obtain ⟨hresult, -, -, hsettled⟩ := configure_settles doubled_built hv
  obtain ⟨shift, contested, -, -, hleaves, hlisted⟩ := hsettled 3 row hrow 3
  have hlisted := hlisted hname.1
  rw [hrules, hname.2] at hlisted
  rw [hcell, hrules] at hleaves
  exact ⟨hresult.trans (if_neg hne), shift, contested, hleaves, hlisted⟩

end Grammar

end CanonicalLR

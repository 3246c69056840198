import CanonicalLR.Proofs.Grammar.Operations

/-! Where the states of a grammar come from. They are those of the last configuring, and after it
nothing but levels and associativities can have been declared. Such a declaration leaves the states
in place, so they may be out of date. -/

namespace CanonicalLR.Grammar

variable {g g' g'' : Grammar} {r : Registry}

/-- What configuring reads is the same. -/
structure SameInputs (g g' : Grammar) : Prop where
  symbols : g.symbols = g'.symbols
  rules : g.rules = g'.rules
  start : g.start = g'.start
  precedences : g.precedences = g'.precedences
  assocs : g.assocs = g'.assocs

theorem SameInputs.refl (g : Grammar) : g.SameInputs g := ⟨rfl, rfl, rfl, rfl, rfl⟩

theorem SameInputs.symm (h : g.SameInputs g') : g'.SameInputs g :=
  ⟨h.symbols.symm, h.rules.symm, h.start.symm, h.precedences.symm, h.assocs.symm⟩

theorem SameInputs.trans (h : g.SameInputs g') (h' : g'.SameInputs g'') : g.SameInputs g'' :=
  ⟨h.symbols.trans h'.symbols, h.rules.trans h'.rules, h.start.trans h'.start,
    h.precedences.trans h'.precedences, h.assocs.trans h'.assocs⟩

theorem SameInputs.reset_eq (h : g.SameInputs g') : g.reset = g'.reset := by
  rw [reset, reset, h.symbols, h.rules, h.start, h.precedences, h.assocs]

theorem configure_reset (g : Grammar) : g.reset.configure = g.configure := rfl

theorem SameInputs.configure_eq (h : g.SameInputs g') : g.configure = g'.configure := by
  rw [← configure_reset g, h.reset_eq, configure_reset]

theorem sameInputs_configure (g : Grammar) : g.configure.2.SameInputs g := by
  unfold configure
  split
  · exact ⟨rfl, rfl, rfl, rfl, rfl⟩
  · simp only [build]
    split <;> exact ⟨rfl, rfl, rfl, rfl, rfl⟩

theorem SameInputs.declare (h : g.SameInputs g') (assoc : Assoc) (level : Int)
    (ids : List SymbolId) : (g.declare assoc level ids).SameInputs (g'.declare assoc level ids) := by
  induction ids generalizing g g' with
  | nil => exact h
  | cons s ids ih =>
    refine ih ⟨h.symbols, h.rules, h.start, ?_, ?_⟩
    · exact congrArg (·.insert s level) h.precedences
    · exact congrArg (·.insert s assoc) h.assocs

theorem declare_states (g : Grammar) (assoc : Assoc) (level : Int) (ids : List SymbolId) :
    (g.declare assoc level ids).states = g.states := by
  induction ids generalizing g with
  | nil => rfl
  | cons s ids ih => exact ih ((g.setPrecedence s level).setAssoc s assoc)

/-- The states are those that configuring `g` leaves, and the rules and the start symbol are still
the ones of `g`. -/
structure Installed (g g' : Grammar) : Prop where
  states : g'.states = g.configure.2.states
  symbols : g'.symbols = g.symbols
  rules : g'.rules = g.rules
  start : g'.start = g.start

theorem installed_configure (g : Grammar) : Installed g g.configure.2 :=
  have h := sameInputs_configure g
  ⟨rfl, h.symbols, h.rules, h.start⟩

theorem Installed.sameInputs (h : Installed g g') (hp : g'.precedences = g.precedences)
    (ha : g'.assocs = g.assocs) : g'.SameInputs g :=
  ⟨h.symbols, h.rules, h.start, hp, ha⟩

theorem Installed.configure (h : Installed g g') (hne : g'.states ≠ []) (hs : g''.SameInputs g) :
    g''.configure.1 = .ok () ∧ g''.configure.2.states = g'.states := by
  rw [hs.configure_eq]
  refine ⟨?_, h.states.symm⟩
  rcases g.configure_ok_or_states_eq_nil with hok | hnil
  · rw [hok]
  · exact absurd (h.states.trans hnil) hne

namespace Operation

variable {op : Operation} {ops : List Operation}

def loads : Operation → Bool
  | load _ | loadBytes _ => true
  | _ => false

def configures : Operation → Bool
  | configure => true
  | _ => false

/-- Levels and associativities are declared. -/
def declares : Operation → Bool
  | setPrecedence _ _ | setAssoc _ _ | declare _ _ _ => true
  | _ => false

/-- The calls that are left when nothing is configured. -/
def building (ops : List Operation) : List Operation := ops.filter fun op => !op.configures

theorem sameInputs_perform (hop : op.loads = false) (h : g.SameInputs g') :
    (op.perform g).2.SameInputs (op.perform g').2 := by
  cases op with
  | addRule rule =>
    refine ⟨h.symbols, ?_, h.start, h.precedences, h.assocs⟩
    exact congrArg (fun rules : List Rule => rules ++ [{ rule with index := rules.length }]) h.rules
  | setStart s =>
    refine ⟨h.symbols, ?_, rfl, h.precedences, h.assocs⟩
    exact congrArg (fun rules : List Rule => rules.modify 0 fun rule => { rule with rhs := [s] })
      h.rules
  | setPrecedence s level =>
    exact ⟨h.symbols, h.rules, h.start, congrArg (·.insert s level) h.precedences, h.assocs⟩
  | setAssoc s assoc =>
    exact ⟨h.symbols, h.rules, h.start, h.precedences, congrArg (·.insert s assoc) h.assocs⟩
  | declare assoc level ids => exact h.declare assoc level ids
  | configure => exact (sameInputs_configure g).trans (h.trans (sameInputs_configure g').symm)
  | load text => cases hop
  | loadBytes bytes => cases hop

/-- What the calls say of a grammar does not depend on when it is configured. -/
theorem sameInputs_building (hops : ∀ op ∈ ops, op.loads = false) (g : Grammar) :
    (run (building ops) g).SameInputs (run ops g) := by
  induction ops using List.reverseRecOn with
  | nil => exact .refl g
  | append_singleton ops op ih =>
    obtain ⟨hbefore, hop⟩ := List.forall_mem_append.mp hops
    have hop := hop op (List.mem_singleton_self op)
    rw [building, List.filter_append, run_append]
    cases hc : op.configures with
    | true =>
      obtain rfl : op = .configure := by cases op <;> first | rfl | cases hc
      rw [List.filter_cons_of_neg (by simp [hc]), List.filter_nil, List.append_nil]
      exact (ih hbefore).trans (sameInputs_configure _).symm
    | false =>
      rw [List.filter_cons_of_pos (by simp [hc]), List.filter_nil, run_append]
      exact sameInputs_perform hop (ih hbefore)

theorem perform_of_declares (h : op.declares = true) (g : Grammar) :
    (op.perform g).2.states = g.states ∧ (op.perform g).2.symbols = g.symbols ∧
      (op.perform g).2.rules = g.rules ∧ (op.perform g).2.start = g.start := by
  cases op with
  | setPrecedence s level => exact ⟨rfl, rfl, rfl, rfl⟩
  | setAssoc s assoc => exact ⟨rfl, rfl, rfl, rfl⟩
  | declare assoc level ids =>
    exact ⟨g.declare_states assoc level ids, g.declare_keeps assoc level ids⟩
  | addRule | setStart | configure | load | loadBytes => cases h

/-- Every other call that is not to load a table installs states or discards them. -/
theorem perform_states (hop : op.loads = false) (hne : (op.perform g).2.states ≠ []) :
    op = .configure ∨ op.declares = true := by
  cases op with
  | configure => exact Or.inl rfl
  | setPrecedence | setAssoc | declare => exact Or.inr rfl
  | addRule | setStart => exact absurd rfl hne
  | load | loadBytes => cases hop

theorem exists_installed (hops : ∀ op ∈ ops, op.loads = false)
    (hne : (run ops (new r)).states ≠ []) : ∃ before after, ops = before ++ .configure :: after ∧
      (∀ op ∈ after, op.declares = true) ∧ Installed (run before (new r)) (run ops (new r)) := by
  induction ops using List.reverseRecOn with
  | nil => exact absurd rfl hne
  | append_singleton ops op ih =>
    obtain ⟨hbefore, hop⟩ := List.forall_mem_append.mp hops
    rw [run_append] at hne ⊢
    rcases perform_states (hop op (List.mem_singleton_self op)) hne with rfl | hdeclares
    · exact ⟨ops, [], rfl, nofun, installed_configure _⟩
    · obtain ⟨hstates, hsymbols, hrules, hstart⟩ := perform_of_declares hdeclares (run ops (new r))
      rw [hstates] at hne
      obtain ⟨before, after, hsplit, hafter, h⟩ := ih hbefore hne
      refine ⟨before, after ++ [op], ?_, ?_, hstates.trans h.states, hsymbols.trans h.symbols,
        hrules.trans h.rules, hstart.trans h.start⟩
      · rw [hsplit, List.append_assoc, List.cons_append]
      · exact List.forall_mem_append.mpr ⟨hafter, List.forall_mem_singleton.mpr hdeclares⟩

/-- A grammar that no table was loaded into has the states of its last configuring, and what came
after it only declared levels and associativities. If these are as they were before, the states are
those of every grammar with the same inputs once it is configured. The calls that do not configure
build such a grammar. -/
theorem run_states (hops : ∀ op ∈ ops, op.loads = false)
    (hconfigured : (run ops (new r)).isConfigured = true) :
    (run (building ops) (new r)).SameInputs (run ops (new r)) ∧
    ∃ before after, ops = before ++ .configure :: after ∧ (∀ op ∈ after, op.declares = true) ∧
      (∀ fresh : Grammar, fresh.SameInputs (run before (new r)) →
        fresh.configure.1 = .ok () ∧ fresh.configure.2.states = (run ops (new r)).states) ∧
      ((run ops (new r)).precedences = (run before (new r)).precedences →
        (run ops (new r)).assocs = (run before (new r)).assocs →
        ∀ fresh : Grammar, fresh.SameInputs (run ops (new r)) →
          fresh.configure.1 = .ok () ∧ fresh.configure.2.states = (run ops (new r)).states) := by
  have hne : (run ops (new r)).states ≠ [] := by simpa [isConfigured] using hconfigured
  obtain ⟨before, after, hsplit, hafter, h⟩ := exists_installed hops hne
  refine ⟨sameInputs_building hops _, before, after, hsplit, hafter, fun fresh hs => ?_,
    fun hp ha fresh hs => ?_⟩
  · exact h.configure hne hs
  · exact h.configure hne (hs.trans (h.sameInputs hp ha))

/-! The grammar `E → E + E` and `E → x`. The sign is declared, and once more after the grammar was
configured. -/

def sumSymbols : Registry :=
  ⟨Registry.new.symbols ++ [⟨"E", .nonterminal⟩, ⟨"+", .terminal 43⟩, ⟨"x", .terminal 120⟩]⟩

def sumOperations (assoc : Assoc) : List Operation :=
  [.addRule { id := 1, lhs := 2, rhs := [2, 3, 2] }, .addRule { id := 2, lhs := 2, rhs := [4] },
    .setStart 2, .declare .left 10 [3], .configure, .declare assoc 10 [3]]

/-- Declared as it was, the sign changes nothing. -/
theorem sum_run_states :
    (run (building (sumOperations .left)) (new sumSymbols)).configure.2.states =
      (run (sumOperations .left) (new sumSymbols)).states ∧
    (run (sumOperations .left) (new sumSymbols)).states.length = 5 := by
  have hconfigured : (run (sumOperations .left) (new sumSymbols)).isConfigured = true := by
    decide +kernel
  obtain ⟨hbuilding, before, after, hsplit, -, -, hstates⟩ :=
    run_states (by decide) hconfigured
  obtain ⟨rfl, rfl⟩ : before = (sumOperations .left).take 4 ∧ after = [.declare .left 10 [3]] := by
    simpa [sumOperations, List.cons_eq_append_iff] using hsplit
  refine ⟨(hstates ?_ ?_ _ hbuilding).2, ?_⟩
  · decide +kernel
  · decide +kernel
  · decide +kernel

/-- Declared the other way, it still groups to the left: the state behind a sum reduces where
configuring anew would have it shift. -/
theorem redeclared_states_stale :
    (∀ op ∈ sumOperations .right, op.loads = false ∧ op.Within sumSymbols) ∧
    (run (sumOperations .right) (new sumSymbols)).isConfigured = true ∧
    ∃ fresh : Grammar, fresh.SameInputs (run (sumOperations .right) (new sumSymbols)) ∧
      fresh.configure.1 = .ok () ∧
      ((run (sumOperations .right) (new sumSymbols)).state 4).reduces.get? 3 = some 1 ∧
      (fresh.configure.2.state 4).shifts.get? 3 = some 3 ∧
      fresh.configure.2.states ≠ (run (sumOperations .right) (new sumSymbols)).states := by
  have hops : ∀ op ∈ sumOperations .right, op.loads = false ∧ op.Within sumSymbols := by
    decide +kernel
  refine ⟨hops, by decide +kernel, run (building (sumOperations .right)) (new sumSymbols),
    sameInputs_building (fun op hop => (hops op hop).1) _, ?_, ?_, ?_, ?_⟩
  all_goals decide +kernel

end Operation

end CanonicalLR.Grammar

import CanonicalLR.Grammar.Configure
import CanonicalLR.Proofs.Automaton.Moves

/-! Grammars made by the operations on them. The first rule is always the one for the start symbol,
every rule knows its place, and what is configured has passed validation. -/

namespace CanonicalLR

def Rule.Mentions (rule : Rule) (s : SymbolId) : Prop := s = rule.lhs ∨ s ∈ rule.rhs

instance (rule : Rule) (s : SymbolId) : Decidable (rule.Mentions s) :=
  inferInstanceAs (Decidable (s = rule.lhs ∨ s ∈ rule.rhs))

namespace Grammar

inductive Built : Grammar → Prop where
  | new {r : Registry} : r.Built → Built (.new r)
  | addRule {g : Grammar} {rule : Rule} :
      Built g → (∀ s, rule.Mentions s → g.symbols.Registered s) → Built (g.addRule rule)
  | setStart {g : Grammar} {s : SymbolId} :
      Built g → g.symbols.Registered s → Built (g.setStart s)
  | setPrecedence {g : Grammar} {s : SymbolId} {level : Int} :
      Built g → Built (g.setPrecedence s level)
  | setAssoc {g : Grammar} {s : SymbolId} {assoc : Assoc} :
      Built g → Built (g.setAssoc s assoc)
  | configure {g : Grammar} : Built g → Built g.configure.2
  | install {g : Grammar} {states : List State} : Built g → Built (g.install states)

def clients (g : Grammar) : List Rule := g.rules.drop 1

structure WellFormed (g : Grammar) : Prop where
  registry : g.symbols.Sound
  top : g.rules[0]? = some { id := 0, lhs := .start, rhs := g.start.toList }
  index : ∀ (j : Nat) (rule : Rule), g.rules[j]? = some rule → rule.index = j
  registered : ∀ rule ∈ g.rules, g.symbols.Registered rule.lhs

variable {g g' : Grammar}

theorem WellFormed.of_eq (h : g.WellFormed) (hs : g'.symbols = g.symbols)
    (hr : g'.rules = g.rules) (hstart : g'.start = g.start) : g'.WellFormed where
  registry := hs ▸ h.registry
  top := by rw [hr, hstart]; exact h.top
  index := by rw [hr]; exact h.index
  registered := by rw [hr, hs]; exact h.registered

theorem wellFormed_new {r : Registry} (h : r.Built) : (new r).WellFormed where
  registry := h.sound
  top := rfl
  index := by
    intro j rule hj
    have hmem : rule ∈ (new r).rules := List.mem_of_getElem? hj
    have hlt : j < 1 := (List.getElem?_eq_some_iff.mp hj).1
    obtain rfl := List.mem_singleton.mp hmem
    show 0 = j
    omega
  registered := by
    intro rule hr
    obtain rfl := List.mem_singleton.mp hr
    exact (List.getElem?_eq_some_iff.mp h.sound.start).1

theorem WellFormed.rules_pos (h : g.WellFormed) : 0 < g.rules.length :=
  (List.getElem?_eq_some_iff.mp h.top).1

theorem WellFormed.addRule (h : g.WellFormed) {rule : Rule}
    (hr : g.symbols.Registered rule.lhs) : (g.addRule rule).WellFormed := by
  have hlen := h.rules_pos
  refine ⟨h.registry, ?_, fun j rule' hj => ?_, fun rule' hmem => ?_⟩
  · show (g.rules ++ [_])[0]? = _
    rw [List.getElem?_append_left hlen]
    exact h.top
  · change (g.rules ++ [_])[j]? = some rule' at hj
    by_cases hlt : j < g.rules.length
    · rw [List.getElem?_append_left hlt] at hj
      exact h.index j rule' hj
    · have hj' := (List.getElem?_eq_some_iff.mp hj).1
      have he : j = g.rules.length := by
        simp only [List.length_append, List.length_singleton] at hj'
        omega
      subst he
      simp only [List.getElem?_concat_length, Option.some.injEq] at hj
      rw [← hj]
  · rcases List.mem_append.mp (show rule' ∈ g.rules ++ [_] from hmem) with hmem | hmem
    · exact h.registered rule' hmem
    · rw [List.mem_singleton.mp hmem]
      exact hr

theorem WellFormed.setStart (h : g.WellFormed) (s : SymbolId) : (g.setStart s).WellFormed := by
  have hget : ∀ (j : Nat) (rule' : Rule), (g.setStart s).rules[j]? = some rule' →
      ∃ rule : Rule, g.rules[j]? = some rule ∧ rule'.index = rule.index ∧ rule'.lhs = rule.lhs := by
    intro j rule' hj
    change (g.rules.modify 0 _)[j]? = some rule' at hj
    rw [List.getElem?_modify] at hj
    obtain ⟨rule, hrule, rfl⟩ := Option.map_eq_some_iff.mp hj
    refine ⟨rule, hrule, ?_⟩
    split <;> exact ⟨rfl, rfl⟩
  refine ⟨h.registry, ?_, fun j rule' hj => ?_, fun rule' hmem => ?_⟩
  · show (g.rules.modify 0 _)[0]? = _
    rw [List.getElem?_modify, h.top]
    rfl
  · obtain ⟨rule, hrule, hindex, -⟩ := hget j rule' hj
    rw [hindex]
    exact h.index j rule hrule
  · obtain ⟨j, hj⟩ := List.mem_iff_getElem?.mp hmem
    obtain ⟨rule, hrule, -, hlhs⟩ := hget j rule' hj
    rw [hlhs]
    exact h.registered rule (List.mem_of_getElem? hrule)

theorem configure_keeps (g : Grammar) : g.configure.2.symbols = g.symbols ∧
    g.configure.2.rules = g.rules ∧ g.configure.2.start = g.start := by
  unfold configure
  split
  · exact ⟨rfl, rfl, rfl⟩
  · simp only [build]
    split <;> exact ⟨rfl, rfl, rfl⟩

theorem Built.wellFormed (h : g.Built) : g.WellFormed := by
  induction h with
  | new hr => exact wellFormed_new hr
  | addRule _ hr ih => exact ih.addRule (hr _ (Or.inl rfl))
  | setStart _ _ ih => exact ih.setStart _
  | setPrecedence _ ih => exact ih.of_eq rfl rfl rfl
  | setAssoc _ ih => exact ih.of_eq rfl rfl rfl
  | @configure g _ ih =>
    obtain ⟨hs, hr, hstart⟩ := g.configure_keeps
    exact ih.of_eq hs hr hstart
  | install _ ih => exact ih.of_eq rfl rfl rfl

theorem Built.symbols_built (h : g.Built) : g.symbols.Built := by
  induction h with
  | new hr => exact hr
  | addRule _ _ ih => exact ih
  | setStart _ _ ih => exact ih
  | setPrecedence _ ih => exact ih
  | setAssoc _ ih => exact ih
  | @configure g _ ih => exact g.configure_keeps.1 ▸ ih
  | install _ ih => exact ih

theorem addRules_keeps (g : Grammar) (rules : List Rule) :
    (rules.foldl addRule g).symbols = g.symbols ∧ (rules.foldl addRule g).start = g.start := by
  induction rules generalizing g with
  | nil => exact ⟨rfl, rfl⟩
  | cons rule rules ih => exact ih (g.addRule rule)

theorem addRules_rules (g : Grammar) (rules : List Rule) : (rules.foldl addRule g).rules =
    g.rules ++ rules.mapIdx fun i rule => { rule with index := g.rules.length + i } := by
  induction rules generalizing g with
  | nil => simp
  | cons rule rules ih =>
    rw [List.foldl_cons, ih, List.mapIdx_cons]
    simp [addRule, reset, Nat.add_assoc, Nat.add_comm 1]

theorem clients_setStart (g : Grammar) (s : SymbolId) : (g.setStart s).clients = g.clients := by
  rw [clients, setStart, reset, clients]
  cases g.rules <;> rfl

theorem clients_addRules (r : Registry) (rules : List Rule) :
    (rules.foldl addRule (.new r)).clients =
      rules.mapIdx fun i rule => { rule with index := i + 1 } := by
  rw [clients, addRules_rules]
  simp [new, Nat.add_comm 1]

theorem declare_keeps (g : Grammar) (assoc : Assoc) (level : Int) (ids : List SymbolId) :
    (g.declare assoc level ids).symbols = g.symbols ∧ (g.declare assoc level ids).rules = g.rules ∧
      (g.declare assoc level ids).start = g.start := by
  induction ids generalizing g with
  | nil => exact ⟨rfl, rfl, rfl⟩
  | cons s ids ih => exact ih ((g.setPrecedence s level).setAssoc s assoc)

theorem levels_declare (g : Grammar) (assoc : Assoc) (level : Int) (ids : List SymbolId)
    (s : SymbolId) :
    (g.declare assoc level ids).precedence? s = (if s ∈ ids then some level else g.precedence? s) ∧
      (g.declare assoc level ids).assoc? s = if s ∈ ids then some assoc else g.assoc? s := by
  induction ids generalizing g with
  | nil => simp [declare]
  | cons t ids ih =>
    obtain ⟨hlevel, hassoc⟩ := ih ((g.setPrecedence t level).setAssoc t assoc)
    have hlevel' : ((g.setPrecedence t level).setAssoc t assoc).precedence? s =
        if s = t then some level else g.precedence? s := SymbolMap.get?_insert ..
    have hassoc' : ((g.setPrecedence t level).setAssoc t assoc).assoc? s =
        if s = t then some assoc else g.assoc? s := SymbolMap.get?_insert ..
    change (Grammar.declare _ assoc level ids).precedence? s = _ ∧
      (Grammar.declare _ assoc level ids).assoc? s = _
    rw [hlevel, hassoc, hlevel', hassoc']
    by_cases hs : s ∈ ids <;> by_cases ht : s = t <;> simp [hs, ht]

theorem Built.addRules {rules : List Rule} (h : g.Built)
    (hr : ∀ rule ∈ rules, ∀ s, rule.Mentions s → g.symbols.Registered s) :
    (rules.foldl Grammar.addRule g).Built := by
  induction rules generalizing g with
  | nil => exact h
  | cons rule rules ih =>
    have hfirst := hr rule List.mem_cons_self
    exact ih (h.addRule hfirst) fun rule' hmem => hr rule' (List.mem_cons_of_mem _ hmem)

theorem Built.declare (h : g.Built) (assoc : Assoc) (level : Int) (ids : List SymbolId) :
    (g.declare assoc level ids).Built := by
  induction ids generalizing g with
  | nil => exact h
  | cons s ids ih => exact ih (.setAssoc (.setPrecedence h))

/-! What validation says. -/

structure Valid (g : Grammar) (s : SymbolId) : Prop where
  start : g.start = some s
  nonterminal : g.symbols.isTerminal s = false
  lhs : ∀ rule ∈ g.clients, g.symbols.isTerminal rule.lhs = false

theorem Valid.of_eq {s : SymbolId} (h : g.Valid s) (hs : g'.symbols = g.symbols)
    (hr : g'.rules = g.rules) (hstart : g'.start = g.start) : g'.Valid s where
  start := hstart.trans h.start
  nonterminal := hs ▸ h.nonterminal
  lhs := by rw [clients, hr, hs]; exact h.lhs

theorem validate_ok (g : Grammar) : g.validate = .ok () ↔ ∃ s, g.Valid s := by
  unfold validate
  constructor
  · intro h
    split at h
    · cases h
    · rename_i s hs
      split at h
      · cases h
      · rename_i hn
        split at h
        · cases h
        · rename_i hnone
          refine ⟨s, hs, by simpa using hn, fun rule hr => ?_⟩
          simpa using List.find?_eq_none.mp hnone rule hr
  · rintro ⟨s, hs, hn, hlhs⟩
    have hnone : (g.rules.drop 1).find? (fun rule => g.symbols.isTerminal rule.lhs) = none :=
      List.find?_eq_none.mpr fun rule hr => by simp [hlhs rule hr]
    rw [hs]
    simp only [hn, Bool.false_eq_true, if_false, hnone]

namespace WellFormed

variable (h : g.WellFormed) {s : SymbolId} (hv : g.Valid s)
include h hv

theorem top_eq : g.rules[0]? = some { id := 0, lhs := .start, rhs := [s] } := by
  rw [h.top, hv.start]
  rfl

theorem rules_eq : g.rules = { id := 0, lhs := .start, rhs := [s] } :: g.clients := by
  have htop := h.top_eq hv
  cases hr : g.rules with
  | nil => simp [hr] at htop
  | cons rule rest =>
    rw [hr, List.getElem?_cons_zero, Option.some.injEq] at htop
    rw [clients, hr, htop]
    rfl

theorem faithful : g.analysis.Faithful := by
  refine ⟨⟨h.registry, h.registered, fun rule hr => ?_⟩, rfl, h.index⟩
  change rule ∈ g.rules at hr
  rw [h.rules_eq hv] at hr
  rcases List.mem_cons.mp hr with rfl | hr
  · exact h.registry.isTerminal_start
  · exact hv.lhs rule hr

theorem rhs_zero : g.analysis.rhs 0 = [s] := by
  rw [Analysis.rhs_eq (show g.analysis.rules[0]? = _ from h.top_eq hv)]

theorem rhs_cases {i d : Nat} {t : SymbolId} (hd : (g.analysis.rhs i)[d]? = some t) :
    (i = 0 ∧ d = 0 ∧ t = s) ∨ ∃ rule ∈ g.clients, t ∈ rule.rhs := by
  cases i with
  | zero =>
    rw [h.rhs_zero hv] at hd
    obtain ⟨hlt, hs⟩ := List.getElem?_eq_some_iff.mp hd
    have hd0 : d = 0 := by simpa using hlt
    subst hd0
    exact Or.inl ⟨rfl, rfl, by simpa using hs.symm⟩
  | succ i =>
    right
    cases hi : g.rules[i + 1]? with
    | none => simp [Analysis.rhs, show g.analysis.rules[i + 1]? = none from hi] at hd
    | some rule =>
      rw [Analysis.rhs_eq (show g.analysis.rules[i + 1]? = _ from hi)] at hd
      rw [h.rules_eq hv, List.getElem?_cons_succ] at hi
      exact ⟨rule, List.mem_of_getElem? hi, List.mem_of_getElem? hd⟩

/-- The first rule is at work only at the bottom, and only the end may follow it. -/
theorem reaches_top (hc : ∀ rule ∈ g.clients, .start ∉ rule.rhs) {path : List SymbolId}
    {i d : Nat} {ahead : Option SymbolId} (hr : Reaches g.analysis path i d ahead) (hi : i = 0) :
    path = [s].take d ∧ ∀ t, ahead = some t → t = .finish := by
  have he := h.rhs_zero hv
  induction hr with
  | start hf => exact ⟨rfl, hf⟩
  | @shift path i d ahead x _ hx ih =>
    subst hi
    obtain ⟨rfl, hf⟩ := ih rfl
    rw [he] at hx
    refine ⟨?_, hf⟩
    rw [List.take_add_one, hx, Option.toList_some]
  | @predict path i d j ahead ahead' _ hp ih =>
    subst hi
    obtain ⟨rule, hrule, hdot, hleads⟩ := hp
    have hlhs : rule.lhs = .start := by
      rw [← Option.some.inj ((h.top_eq hv).symm.trans hrule)]
    rcases h.rhs_cases hv hdot with ⟨rfl, rfl, -⟩ | ⟨client, hclient, hmem⟩
    · obtain ⟨rfl, hf⟩ := ih rfl
      refine ⟨rfl, fun t ht => ?_⟩
      have hl := hleads t ht
      rw [he] at hl
      rcases hl with hs | ⟨-, ht'⟩
      · cases hs
      · exact hf t ht'
    · exact absurd (hlhs ▸ hmem) (hc client hclient)

end WellFormed

/-! Grammars whose rules leave the symbol above the start symbol alone. -/

theorem start_notMem_of_parses (h : g.WellFormed) {s : SymbolId} (hv : g.Valid s)
    (hc : ∀ rule ∈ g.clients, ¬ rule.Mentions .start) (hs : s = .start) {trees : List Tree}
    {roots word : List SymbolId} (hp : Parses g.symbols g.rules trees roots word) :
    .start ∉ roots := by
  induction hp with
  | nil => simp
  | leaf ht _ ih =>
    rintro hmem
    rcases List.mem_cons.mp hmem with rfl | hmem
    · rw [h.registry.isTerminal_start] at ht
      cases ht
    · exact ih hmem
  | @node rule _ _ _ _ _ hr _ _ ihc ih =>
    rintro hmem
    rcases List.mem_cons.mp hmem with he | hmem
    · rw [h.rules_eq hv] at hr
      rcases List.mem_cons.mp hr with rfl | hr
      · exact ihc (by simp [hs])
      · exact hc rule hr (Or.inl he)
    · exact ih hmem

theorem WellFormed.topped (h : g.WellFormed) {s : SymbolId} (hv : g.Valid s)
    (hc : ∀ rule ∈ g.clients, ¬ rule.Mentions .start) : g.analysis.Topped where
  top := by
    intro rule hr
    change g.rules[0]? = some rule at hr
    rw [h.top_eq hv] at hr
    rw [← Option.some.inj hr]
  above := by
    intro rule hr hmem trees word hp
    change rule ∈ g.rules at hr
    rw [h.rules_eq hv] at hr
    rcases List.mem_cons.mp hr with rfl | hr
    · have hs : s = .start := (List.mem_singleton.mp hmem).symm
      exact start_notMem_of_parses h hv hc hs hp (List.mem_singleton_self _)
    · exact hc rule hr (Or.inr hmem)

/-! A grammar with a recursive and an empty rule, `S → x S` and `S →`. -/

def chainSymbols : Registry :=
  ⟨Registry.new.symbols ++ [⟨"S", .nonterminal⟩, ⟨"x", .terminal 120⟩]⟩

def chain : Grammar :=
  (((new chainSymbols).setStart 2).addRule { id := 1, lhs := 2, rhs := [3, 2] }).addRule
    { id := 2, lhs := 2, rhs := [] }

theorem chainSymbols_built : chainSymbols.Built :=
  Registry.built_of_nodup (by decide) (by decide) (by decide)

theorem chain_built : chain.Built := by
  refine .addRule (.addRule (.setStart (.new chainSymbols_built) ?_) ?_) ?_
  · decide +kernel
  · decide +kernel
  · decide +kernel

theorem chain_configure : chain.configure = (.ok (), chain.configure.2) := by
  have h : chain.configure.1 = .ok () := by decide +kernel
  exact (Prod.eta _).symm.trans (congrArg (·, chain.configure.2) h)

/-- Numerals name symbols. -/
instance : NeZero maxSymbols := ⟨by decide⟩

end Grammar

end CanonicalLR

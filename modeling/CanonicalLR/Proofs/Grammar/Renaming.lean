import CanonicalLR.Proofs.Grammar.Regular
import Mathlib.Logic.Equiv.Option

/-! Grammars that differ in the order of their symbols and rules alone. A permutation of the symbols
and one of the rules turn one grammar into the other, and with them all that can be reached. -/

namespace CanonicalLR

/-! Lists that differ in their order. -/

/-- Numbers behind the first one are permuted, the first one stays. -/
def keepFirst (σ : Equiv.Perm Nat) : Equiv.Perm Nat where
  toFun
    | 0 => 0
    | i + 1 => σ i + 1
  invFun
    | 0 => 0
    | i + 1 => σ.symm i + 1
  left_inv i := by cases i <;> simp
  right_inv i := by cases i <;> simp

/-- Where the entries of a list stand in a permuted one; places behind the end stay. -/
theorem exists_places {α : Type} {xs ys : List α} (h : xs.Perm ys) :
    ∃ σ : Equiv.Perm Nat, (∀ i, ys[σ i]? = xs[i]?) ∧ ∀ i, xs.length ≤ i → σ i = i := by
  induction h with
  | nil => exact ⟨Equiv.refl _, fun _ => rfl, fun _ _ => rfl⟩
  | cons x _ ih =>
    obtain ⟨σ, hσ, hfix⟩ := ih
    refine ⟨keepFirst σ, fun i => ?_, fun i hi => ?_⟩
    · cases i with
      | zero => rfl
      | succ i => exact hσ i
    · cases i with
      | zero => rfl
      | succ i => exact congrArg (· + 1) (hfix i (Nat.le_of_succ_le_succ hi))
  | swap x y l =>
    refine ⟨Equiv.swap 0 1, fun i => ?_, fun i hi => ?_⟩
    · match i with
      | 0 => rfl
      | 1 => rfl
      | i + 2 => rw [Equiv.swap_apply_of_ne_of_ne (by omega) (by omega)]; rfl
    · simp only [List.length_cons] at hi
      exact Equiv.swap_apply_of_ne_of_ne (by omega) (by omega)
  | @trans xs ys zs hxy _ ih ih' =>
    obtain ⟨σ, hσ, hfix⟩ := ih
    obtain ⟨τ, hτ, hfix'⟩ := ih'
    refine ⟨σ.trans τ, fun i => (hτ _).trans (hσ i), fun i hi => ?_⟩
    rw [Equiv.trans_apply, hfix i hi, hfix' i (hxy.length_eq ▸ hi)]

/-! Registries with the same symbols in other places. -/

namespace Registry

variable {r r' : Registry} {π : Equiv.Perm SymbolId} {s s' : SymbolId}

section

variable (hget : ∀ s, r'.get? (π s) = r.get? s)
include hget

theorem registered_permuted : r'.Registered (π s) ↔ r.Registered s := by
  have hiff : ∀ {r : Registry} {s : SymbolId}, r.Registered s ↔ (r.get? s).isSome = true := by
    intro r s
    simp [Registered, get?, size]
  rw [hiff, hiff, hget]

theorem name_permuted (s : SymbolId) : r'.name (π s) = r.name s := by
  rw [name, hget, name]

/-- A symbol has its place in the other registry where its name is. -/
theorem Distinct.eq_permuted (hr' : r'.Distinct) (hs : r.Registered s) (hs' : r'.Registered s')
    (hname : r'.name s' = r.name s) : s' = π s :=
  hr'.eq_of_name hs' ((registered_permuted hget).mpr hs) (hname.trans (name_permuted hget s).symm)

theorem Distinct.eq_map_permuted (hr' : r'.Distinct) {ids ids' : List SymbolId}
    (hids : ∀ s ∈ ids, r.Registered s) (hids' : ∀ s ∈ ids', r'.Registered s)
    (hnames : ids'.map r'.name = ids.map r.name) : ids' = ids.map π := by
  refine hr'.eq_of_map_name hids' (List.forall_mem_map.mpr fun s hs => ?_) ?_
  · exact (registered_permuted hget).mpr (hids s hs)
  · rw [hnames, List.map_map]
    exact List.map_congr_left fun s _ => (name_permuted hget s).symm

theorem Distinct.permuted_eq_self (hr' : r'.Distinct) {sym : Symbol} (hs : r.get? s = some sym)
    (hs' : r'.get? s = some sym) : π s = s := by
  refine (hr'.eq_permuted hget (registered_of_get? hs) (registered_of_get? hs') ?_).symm
  rw [name, hs', name, hs]

end

end Registry

/-! Rules and grammars with other symbols. -/

structure Rule.Renamed (π : Equiv.Perm SymbolId) (rule rule' : Rule) : Prop where
  id : rule'.id = rule.id
  lhs : rule'.lhs = π rule.lhs
  rhs : rule'.rhs = rule.rhs.map π
  prec : rule'.prec = rule.prec

theorem Rule.Renamed.symm {π : Equiv.Perm SymbolId} {rule rule' : Rule}
    (h : Renamed π rule rule') : Renamed π.symm rule' rule where
  id := h.id.symm
  lhs := by rw [h.lhs, Equiv.symm_apply_apply]
  rhs := by simp [h.rhs]
  prec := h.prec.symm

namespace Grammar

/-- Renaming the symbols and reordering the rules turns the first grammar into the second. -/
structure Renames (g g' : Grammar) (π : Equiv.Perm SymbolId) (σ : Equiv.Perm Nat) : Prop where
  get? : ∀ s, g'.symbols.get? (π s) = g.symbols.get? s
  finish : π .finish = .finish
  rule : ∀ i, Option.Rel (Rule.Renamed π) g.rules[i]? g'.rules[σ i]?
  top : σ 0 = 0
  start : g'.start = g.start.map π
  precedence? : ∀ s, g.symbols.Registered s → g'.precedence? (π s) = g.precedence? s
  assoc? : ∀ s, g.symbols.Registered s → g'.assoc? (π s) = g.assoc? s

variable {g g' : Grammar} {π : Equiv.Perm SymbolId} {σ : Equiv.Perm Nat}

theorem getElem?_clients (g : Grammar) (i : Nat) : g.clients[i]? = g.rules[i + 1]? := by
  rw [clients, List.getElem?_drop, Nat.add_comm]

namespace Renames

variable {path roots word : List SymbolId} {i d j : Nat} {ahead ahead' : Option SymbolId}
  {s t : SymbolId} {rule : Rule} {trees : List Tree}

section

variable (h : Renames g g' π σ)
include h

theorem registered_iff : g'.symbols.Registered (π s) ↔ g.symbols.Registered s :=
  Registry.registered_permuted h.get?

theorem isTerminal (s : SymbolId) : g'.symbols.isTerminal (π s) = g.symbols.isTerminal s := by
  rw [Registry.isTerminal, h.get?, Registry.isTerminal]

theorem name (s : SymbolId) : g'.symbols.name (π s) = g.symbols.name s :=
  Registry.name_permuted h.get? s

theorem exists_rule (hi : g.rules[i]? = some rule) :
    ∃ rule', g'.rules[σ i]? = some rule' ∧ Rule.Renamed π rule rule' := by
  have hrel := h.rule i
  rw [hi] at hrel
  generalize g'.rules[σ i]? = found at hrel
  cases hrel with
  | some hrenamed => exact ⟨_, rfl, hrenamed⟩

theorem exists_mem (hrule : rule ∈ g.rules) : ∃ rule' ∈ g'.rules, Rule.Renamed π rule rule' := by
  obtain ⟨i, hi⟩ := List.mem_iff_getElem?.mp hrule
  obtain ⟨rule', hrule', hrenamed⟩ := h.exists_rule hi
  exact ⟨rule', List.mem_of_getElem? hrule', hrenamed⟩

theorem symm : Renames g' g π.symm σ.symm where
  get? s := by rw [← h.get? (π.symm s), Equiv.apply_symm_apply]
  finish := by rw [Equiv.symm_apply_eq, h.finish]
  rule i := by
    have hrel := h.rule (σ.symm i)
    rw [Equiv.apply_symm_apply] at hrel
    generalize g.rules[σ.symm i]? = rule at hrel
    generalize g'.rules[i]? = rule' at hrel
    cases hrel with
    | none => exact .none
    | some hrenamed => exact .some hrenamed.symm
  top := by rw [Equiv.symm_apply_eq, h.top]
  start := by cases hs : g.start <;> simp [h.start, hs]
  precedence? s hs := by
    have hs' : g.symbols.Registered (π.symm s) := by
      rwa [← h.registered_iff, Equiv.apply_symm_apply]
    rw [← h.precedence? _ hs', Equiv.apply_symm_apply]
  assoc? s hs := by
    have hs' : g.symbols.Registered (π.symm s) := by
      rwa [← h.registered_iff, Equiv.apply_symm_apply]
    rw [← h.assoc? _ hs', Equiv.apply_symm_apply]

/-! What can be derived and reached. -/

theorem parses (hp : Parses g.symbols g.rules trees roots word) :
    ∃ trees', Parses g'.symbols g'.rules trees' (roots.map π) (word.map π) := by
  induction hp with
  | nil => exact ⟨[], .nil⟩
  | @leaf s trees roots word hs _ ih =>
    obtain ⟨trees', hp'⟩ := ih
    exact ⟨_, .leaf ((h.isTerminal s).trans hs) hp'⟩
  | @node rule children trees below roots word hrule _ _ ih ih' =>
    obtain ⟨rule', hrule', hrenamed⟩ := h.exists_mem hrule
    obtain ⟨children', hp⟩ := ih
    obtain ⟨trees', hp'⟩ := ih'
    rw [← hrenamed.rhs] at hp
    have hnode := Parses.node hrule' hp hp'
    rw [hrenamed.lhs] at hnode
    exact ⟨_, by simpa using hnode⟩

theorem vanishes (hv : Vanishes g.symbols g.rules roots) :
    Vanishes g'.symbols g'.rules (roots.map π) := by
  obtain ⟨trees, hp⟩ := hv
  exact h.parses hp

theorem starts (hs : Starts g.symbols g.rules t roots) :
    Starts g'.symbols g'.rules (π t) (roots.map π) := by
  induction hs with
  | head ht => exact .head ((h.isTerminal t).trans ht)
  | rule hrule _ ih =>
    obtain ⟨rule', hrule', hrenamed⟩ := h.exists_mem hrule
    rw [← hrenamed.rhs] at ih
    rw [List.map_cons, ← hrenamed.lhs]
    exact .rule hrule' ih
  | skip hv _ ih => exact .skip (h.vanishes hv) ih

theorem leads (hl : Leads g.symbols g.rules t roots ahead) :
    Leads g'.symbols g'.rules (π t) (roots.map π) (ahead.map π) :=
  hl.imp h.starts fun ⟨hv, ht⟩ => ⟨h.vanishes hv, by rw [ht, Option.map_some]⟩

theorem rhs (i : Nat) : g'.analysis.rhs (σ i) = (g.analysis.rhs i).map π := by
  have hrel := h.rule i
  simp only [Analysis.rhs, analysis, Analysis.of]
  generalize g.rules[i]? = rule at hrel ⊢
  generalize g'.rules[σ i]? = rule' at hrel ⊢
  cases hrel with
  | none => rfl
  | some hrenamed => exact hrenamed.rhs

theorem predicts (hp : Predicts g.analysis i d ahead j ahead') :
    Predicts g'.analysis (σ i) d (ahead.map π) (σ j) (ahead'.map π) := by
  obtain ⟨rule, hrule, hdot, hleads⟩ := hp
  obtain ⟨rule', hrule', hrenamed⟩ := h.exists_rule hrule
  refine ⟨rule', hrule', ?_, fun t' ht' => ?_⟩
  · rw [h.rhs, List.getElem?_map, hdot, hrenamed.lhs, Option.map_some]
  · obtain ⟨t, ht, rfl⟩ := Option.map_eq_some_iff.mp ht'
    rw [h.rhs, ← List.map_drop]
    exact h.leads (hleads t ht)

theorem reaches (hr : Reaches g.analysis path i d ahead) :
    Reaches g'.analysis (path.map π) (σ i) d (ahead.map π) := by
  induction hr with
  | start hfinish =>
    rw [h.top]
    refine .start fun t' ht' => ?_
    obtain ⟨t, ht, rfl⟩ := Option.map_eq_some_iff.mp ht'
    rw [hfinish t ht, h.finish]
  | shift _ hs ih =>
    rw [List.map_append]
    refine ih.shift ?_
    rw [h.rhs, List.getElem?_map, hs, Option.map_some]
  | predict _ hp ih => exact ih.predict (h.predicts hp)

end

variable (h : Renames g g' π σ)
include h

theorem reaches_iff : Reaches g'.analysis (path.map π) (σ i) d (ahead.map π) ↔
    Reaches g.analysis path i d ahead := by
  refine ⟨fun hr => ?_, h.reaches⟩
  have hback := h.symm.reaches hr
  simpa using hback

theorem canShift_iff : CanShift g'.analysis (path.map π) (π s) ↔ CanShift g.analysis path s := by
  have hforward : ∀ {g g' : Grammar} {π : Equiv.Perm SymbolId} {σ : Equiv.Perm Nat}
      {path : List SymbolId} {s : SymbolId}, Renames g g' π σ → CanShift g.analysis path s →
      CanShift g'.analysis (path.map π) (π s) := by
    rintro g g' π σ path s h ⟨i, d, ahead, hr, hdot⟩
    refine ⟨σ i, d, ahead.map π, h.reaches hr, ?_⟩
    rw [h.rhs, List.getElem?_map, hdot, Option.map_some]
  refine ⟨fun hs => ?_, hforward h⟩
  have hback := hforward h.symm hs
  simpa using hback

theorem canReduce_iff : CanReduce g'.analysis (path.map π) (σ i) (π s) ↔
    CanReduce g.analysis path i s := by
  have hforward : ∀ {g g' : Grammar} {π : Equiv.Perm SymbolId} {σ : Equiv.Perm Nat}
      {path : List SymbolId} {i : Nat} {s : SymbolId}, Renames g g' π σ →
      CanReduce g.analysis path i s → CanReduce g'.analysis (path.map π) (σ i) (π s) := by
    rintro g g' π σ path i s h ⟨rule, hrule, hr⟩
    obtain ⟨rule', hrule', hrenamed⟩ := h.exists_rule hrule
    refine ⟨rule', hrule', ?_⟩
    rw [hrenamed.rhs, List.length_map]
    exact h.reaches hr
  refine ⟨fun hs => ?_, hforward h⟩
  have hback := hforward h.symm hs
  simpa using hback

/-! What is declared. -/

theorem lastTerminal? (ids : List SymbolId) :
    g'.symbols.lastTerminal? (ids.map π) = (g.symbols.lastTerminal? ids).map π := by
  have hcomp : g'.symbols.isTerminal ∘ π = g.symbols.isTerminal := funext h.isTerminal
  rw [Registry.lastTerminal?, ← List.map_reverse, List.find?_map, hcomp]
  rfl

theorem rulePrecedence? {rule' : Rule} (hr : Rule.Renamed π rule rule') :
    g'.rulePrecedence? rule' = g.rulePrecedence? rule := by
  rw [Grammar.rulePrecedence?, hr.rhs, h.lastTerminal?, hr.prec, Grammar.rulePrecedence?]
  cases hlast : g.symbols.lastTerminal? rule.rhs with
  | none => rfl
  | some t =>
    have ht := Registry.registered_of_isTerminal (List.find?_some hlast)
    simp only [Option.map_some, Option.bind_some, h.precedence? t ht]

theorem verdict {rule' : Rule} (hr : Rule.Renamed π rule rule') (hs : g.symbols.Registered s) :
    g'.verdict (π s) rule' = g.verdict s rule := by
  have hassoc : ∀ equal, g'.assocVerdict (π s) rule' equal = g.assocVerdict s rule equal := by
    intro equal
    have hlast : (g'.symbols.lastTerminal? rule'.rhs == some (π s)) =
        (g.symbols.lastTerminal? rule.rhs == some s) := by
      rw [hr.rhs, h.lastTerminal?]
      cases g.symbols.lastTerminal? rule.rhs <;> simp
    rw [Grammar.assocVerdict, h.assoc? s hs, hlast, Grammar.assocVerdict]
  rw [Grammar.verdict, h.precedence? s hs, h.rulePrecedence? hr, hassoc, hassoc, Grammar.verdict]

theorem valid (hv : g.Valid s) : g'.Valid (π s) where
  start := by rw [h.start, hv.start, Option.map_some]
  nonterminal := (h.isTerminal s).trans hv.nonterminal
  lhs := by
    intro rule' hrule'
    obtain ⟨i, hi⟩ := List.mem_iff_getElem?.mp hrule'
    rw [getElem?_clients] at hi
    obtain ⟨rule, hrule, hrenamed⟩ := h.symm.exists_rule hi
    have hpos : σ.symm (i + 1) ≠ 0 := by
      intro hzero
      have := (Equiv.symm_apply_eq _).mp hzero
      rw [h.top] at this
      omega
    have hmem : rule ∈ g.clients := by
      obtain ⟨j, hj⟩ := Nat.exists_eq_succ_of_ne_zero hpos
      rw [hj] at hrule
      exact List.mem_of_getElem? ((g.getElem?_clients j).trans hrule)
    rw [← h.symm.isTerminal, ← hrenamed.lhs]
    exact hv.lhs rule hmem

end Renames

end Grammar

/-! Grammars by their names. -/

/-- What a rule says, with names for its symbols. -/
def Rule.named (r : Registry) (rule : Rule) : Nat × String × List String × Option Int :=
  (rule.id, r.name rule.lhs, rule.rhs.map r.name, rule.prec)

namespace Grammar

/-- The grammars have the same symbols and the same rules, whatever their order, the same start
symbol, and the same levels and associativities. -/
structure Alike (g g' : Grammar) : Prop where
  symbols : g.symbols.symbols.Perm g'.symbols.symbols
  clients : (g.clients.map (Rule.named g.symbols)).Perm (g'.clients.map (Rule.named g'.symbols))
  start : g.start.map g.symbols.name = g'.start.map g'.symbols.name
  precedence? : ∀ s s', g.symbols.Registered s → g'.symbols.Registered s' →
    g.symbols.name s = g'.symbols.name s' → g.precedence? s = g'.precedence? s'
  assoc? : ∀ s s', g.symbols.Registered s → g'.symbols.Registered s' →
    g.symbols.name s = g'.symbols.name s' → g.assoc? s = g'.assoc? s'

variable {g g' : Grammar}

/-- Symbols of one registry by their places in another with the same symbols. -/
theorem exists_symbols {r r' : Registry} (hr : r.Sound) (h : r.symbols.Perm r'.symbols) :
    ∃ π : Equiv.Perm SymbolId, ∀ s, r'.get? (π s) = r.get? s := by
  obtain ⟨τ, hτ, hfix⟩ := exists_places h
  have hsize : r.symbols.length ≤ maxSymbols := hr.size_le
  -- no place moves across the end of the room for symbols
  have hlt : ∀ i, τ i < maxSymbols ↔ i < maxSymbols := by
    intro i
    constructor
    · intro hi
      by_contra hno
      rw [hfix i (by omega)] at hi
      exact hno hi
    · intro hi
      by_contra hno
      have hsame := τ.injective (hfix (τ i) (by omega))
      omega
  let π := (Fin.equivSubtype.trans (τ.subtypeEquiv fun i => (hlt i).symm)).trans
    Fin.equivSubtype.symm
  exact ⟨π, fun s => hτ s.val⟩

theorem Built.registered_of_start (hg : g.Built) {s : SymbolId} (hs : g.start = some s) :
    g.symbols.Registered s := by
  refine hg.registered _ (List.mem_of_getElem? hg.wellFormed.top) s (Or.inr ?_)
  simp [hs]

section

variable {π : Equiv.Perm SymbolId} {rule rule' : Rule} (hg : g.Built) (hg' : g'.Built)
  (hget : ∀ s, g'.symbols.get? (π s) = g.symbols.get? s)
include hg hg' hget

theorem Built.start_eq_map (h : g.start.map g.symbols.name = g'.start.map g'.symbols.name) :
    g'.start = g.start.map π := by
  cases hs : g.start with
  | none =>
    rw [hs, Option.map_none] at h
    exact Option.map_eq_none_iff.mp h.symm
  | some s =>
    rw [hs, Option.map_some] at h
    obtain ⟨s', hs', hname⟩ := Option.map_eq_some_iff.mp h.symm
    rw [hs', Option.map_some, hg'.symbols_built.distinct.eq_permuted hget
      (hg.registered_of_start hs) (hg'.registered_of_start hs') hname]

/-- Rules that say the same in names are those of the same symbols. -/
theorem Built.renamed_of_named (hrule : rule ∈ g.rules) (hrule' : rule' ∈ g'.rules)
    (h : rule'.named g'.symbols = rule.named g.symbols) : Rule.Renamed π rule rule' := by
  have hdistinct := hg'.symbols_built.distinct
  have hmem := hg.registered rule hrule
  have hmem' := hg'.registered rule' hrule'
  simp only [Rule.named, Prod.mk.injEq] at h
  obtain ⟨hid, hlhs, hrhs, hprec⟩ := h
  refine ⟨hid, ?_, ?_, hprec⟩
  · exact hdistinct.eq_permuted hget (hmem _ (Or.inl rfl)) (hmem' _ (Or.inl rfl)) hlhs
  · exact hdistinct.eq_map_permuted hget (fun s hs => hmem s (Or.inr hs))
      (fun s hs => hmem' s (Or.inr hs)) hrhs

end

theorem Alike.exists_renames (hg : g.Built) (hg' : g'.Built) (h : Alike g g') :
    ∃ π σ, Renames g g' π σ := by
  obtain ⟨π, hget⟩ := exists_symbols hg.wellFormed.registry h.symbols
  obtain ⟨τ, hτ, -⟩ := exists_places h.clients
  have hdistinct := hg'.symbols_built.distinct
  have hsound := hg.symbols_built.sound
  have hsound' := hg'.symbols_built.sound
  have htop : π .start = .start := hdistinct.permuted_eq_self hget hsound.start hsound'.start
  have hfinish : π .finish = .finish := hdistinct.permuted_eq_self hget hsound.finish hsound'.finish
  have hstart : g'.start = g.start.map π := hg.start_eq_map hg' hget h.start
  have hregistered : ∀ s, g.symbols.Registered s → g'.symbols.Registered (π s) := fun _ hs =>
    (Registry.registered_permuted hget).mpr hs
  have hname : ∀ s, g.symbols.name s = g'.symbols.name (π s) := fun s =>
    (Registry.name_permuted hget s).symm
  refine ⟨π, keepFirst τ, hget, hfinish, fun i => ?_, rfl, hstart,
    fun s hs => (h.precedence? s _ hs (hregistered s hs) (hname s)).symm,
    fun s hs => (h.assoc? s _ hs (hregistered s hs) (hname s)).symm⟩
  cases i with
  | zero =>
    have hzero : keepFirst τ 0 = 0 := rfl
    rw [hzero, hg.wellFormed.top, hg'.wellFormed.top]
    refine .some ⟨rfl, htop.symm, ?_, rfl⟩
    rw [hstart]
    cases g.start <;> rfl
  | succ i =>
    have hsucc : keepFirst τ (i + 1) = τ i + 1 := rfl
    have hplaced := hτ i
    rw [List.getElem?_map, List.getElem?_map, getElem?_clients, getElem?_clients] at hplaced
    rw [hsucc]
    cases hrule : g.rules[i + 1]? with
    | none =>
      rw [hrule] at hplaced
      rw [Option.map_eq_none_iff.mp hplaced]
      exact .none
    | some rule =>
      rw [hrule] at hplaced
      obtain ⟨rule', hrule', hnamed⟩ := Option.map_eq_some_iff.mp hplaced
      rw [hrule']
      exact .some (hg.renamed_of_named hg' hget (List.mem_of_getElem? hrule)
        (List.mem_of_getElem? hrule') hnamed)

end Grammar

end CanonicalLR

import CanonicalLR.Parser.Replay
import CanonicalLR.Proofs.Grammar.Reordering
import CanonicalLR.Proofs.Parser.ErrorDetection

/-! Parsers for grammars that differ in their order alone. Their states are numbered differently, and
so are symbols and rules; with a builder that knows a rule by its id and a symbol by its name the two
still go step by step together. -/

namespace CanonicalLR

open Engine Collection

variable {τ β β' ν : Type} {g g' : Grammar}

/-- A builder that sees the id of the rule, the name of its left-hand side, the children and the
range. -/
def Builder.named
    (build : β → Nat → String → List (Child ν) → Span → Except ParseError (Option ν) × β)
    (r : Registry) : Builder β ν where
  apply state lhs rule children span := build state rule.id (r.name lhs) children span

def Call.named (r : Registry) (call : Call ν) :
    Nat × String × List (Child ν) × Span × Except ParseError (Option ν) :=
  (call.rule.id, r.name call.lhs, call.children, call.span, call.answer)

def Grammar.expected (g : Grammar) (j : Nat) : List SymbolId := (g.state j).expected g.symbols

/-- The errors are the same, but for the order in which they list the terminals that were
expected. -/
inductive SameError (g g' : Grammar) : ParseError → ParseError → Prop where
  | same (err : ParseError) : SameError g g' err err
  | expected {j j' : Nat} (span : Span) (found : String) :
      ((g.expected j).map g.symbols.name).Perm ((g'.expected j').map g'.symbols.name) →
      SameError g g' (.syntactic span found (g.symbols.namesText ", " (g.expected j)))
        (.syntactic span found (g'.symbols.namesText ", " (g'.expected j')))

inductive SameResult (g g' : Grammar) : Except ParseError ν → Except ParseError ν → Prop where
  | ok (n : ν) : SameResult g g' (.ok n) (.ok n)
  | error {err err' : ParseError} : SameError g g' err err' →
      SameResult g g' (.error err) (.error err')

/-! Configurations side by side. -/

variable {π : Equiv.Perm SymbolId} {σ : Equiv.Perm Nat} {R : β → β' → Prop}

structure Frame.Renamed (π : Equiv.Perm SymbolId) (f f' : Frame ν) : Prop where
  symbol : f'.symbol = π f.symbol
  child : f'.child = f.child
  span : f'.span = f.span

structure Parser.Beside (R : β → β' → Prop) (p : Parser τ β) (p' : Parser τ β') : Prop where
  source : p'.source = p.source
  builder : R p.builder p'.builder
  stats : p'.stats = p.stats

/-- Engines that go together if their builders are kept in related states. -/
structure Engine.Beside (e : Engine τ β ν) (e' : Engine τ β' ν) (π : Equiv.Perm SymbolId)
    (σ : Equiv.Perm Nat) (R : β → β' → Prop) : Prop where
  renames : Grammar.Renames e.grammar e'.grammar π σ
  configured : ∃ start, e.grammar.Configured start
  configured' : ∃ start, e'.grammar.Configured start
  byType? : ∀ type, e'.grammar.symbols.byType? type = (e.grammar.symbols.byType? type).map π
  cell : ∀ {j j' : Nat} {path : List SymbolId} {s : SymbolId}, At e.grammar.analysis j path →
    At e'.grammar.analysis j' (path.map π) → e.grammar.symbols.Registered s →
    ((e'.grammar.state j').shift? (π s)).isSome = ((e.grammar.state j).shift? s).isSome ∧
      (e'.grammar.state j').reduce? (π s) = ((e.grammar.state j).reduce? s).map σ
  source : e'.source = e.source
  answer : ∀ {b : β} {b' : β'} {rule rule' : Rule}, R b b' → Rule.Renamed π rule rule' →
    ∀ children span,
      (e'.builder.apply b' rule'.lhs rule' children span).1 =
        (e.builder.apply b rule.lhs rule children span).1 ∧
      R (e.builder.apply b rule.lhs rule children span).2
        (e'.builder.apply b' rule'.lhs rule' children span).2

structure Config.Beside (e : Engine τ β ν) (e' : Engine τ β' ν) (π : Equiv.Perm SymbolId)
    (R : β → β' → Prop) (c : Config τ β ν) (c' : Config τ β' ν) : Prop where
  frames : List.Forall₂ (Frame.Renamed π) c.frames c'.frames
  ahead : c'.ahead = c.ahead
  parser : Parser.Beside R c.parser c'.parser
  stands : Stands e.grammar.analysis c.frames
  stands' : Stands e'.grammar.analysis c'.frames

inductive Progress.Beside (e : Engine τ β ν) (e' : Engine τ β' ν) (π : Equiv.Perm SymbolId)
    (R : β → β' → Prop) : Progress τ β ν → Progress τ β' ν → Prop where
  | more {c : Config τ β ν} {c' : Config τ β' ν} : Config.Beside e e' π R c c' →
      Progress.Beside e e' π R (.more c) (.more c')
  | done {result result' : Except ParseError ν} {p : Parser τ β} {p' : Parser τ β'} :
      SameResult e.grammar e'.grammar result result' → Parser.Beside R p p' →
      Progress.Beside e e' π R (.done result p) (.done result' p')

theorem map_eq_of_forall₂ {α γ δ : Type*} {r : α → γ → Prop} {f : α → δ} {h : γ → δ}
    (hr : ∀ x y, r x y → h y = f x) {xs : List α} {ys : List γ} (hxy : List.Forall₂ r xs ys) :
    ys.map h = xs.map f := by
  induction hxy with
  | nil => rfl
  | cons hhead _ ih => rw [List.map_cons, List.map_cons, hr _ _ hhead, ih]

theorem spelled_of_forall₂ {frames frames' : List (Frame ν)}
    (h : List.Forall₂ (Frame.Renamed π) frames frames') :
    spelled frames' = (spelled frames).map π := by
  rw [spelled, spelled, List.map_reverse, List.map_map]
  exact congrArg List.reverse (map_eq_of_forall₂ (fun _ _ hf => hf.symbol) h)

namespace Engine.Beside

variable {e : Engine τ β ν} {e' : Engine τ β' ν} (h : e.Beside e' π σ R)
  {c : Config τ β ν} {c' : Config τ β' ν} {frames frames' : List (Frame ν)}
  {path : List SymbolId} {j j' : Nat} {t : Token}
include h

theorem expected (hj : At e.grammar.analysis j path)
    (hj' : At e'.grammar.analysis j' (path.map π)) :
    ((e.grammar.expected j).map e.grammar.symbols.name).Perm
      ((e'.grammar.expected j').map e'.grammar.symbols.name) := by
  have hnodup : ∀ (g : Grammar) (j : Nat), (g.expected j).Nodup := fun g j =>
    (State.expected_pairwise _ _).imp fun hlt => (ne_of_lt hlt)
  have hperm : ((e.grammar.expected j).map π).Perm (e'.grammar.expected j') := by
    refine (List.perm_ext_iff_of_nodup ((hnodup _ _).map π.injective) (hnodup _ _)).mpr fun s' => ?_
    obtain ⟨s, rfl⟩ := π.surjective s'
    rw [List.mem_map_of_injective π.injective, Grammar.expected, Grammar.expected,
      State.mem_expected, State.mem_expected, h.renames.isTerminal]
    refine and_congr_right fun hs => ?_
    obtain ⟨hshift, hreduce⟩ := h.cell hj hj' (Registry.registered_of_isTerminal hs)
    rw [← Option.isSome_iff_exists, ← Option.isSome_iff_exists, ← Option.isSome_iff_exists,
      ← Option.isSome_iff_exists, hshift, hreduce, Option.isSome_map]
  have hnames : (e.grammar.expected j).map e.grammar.symbols.name =
      ((e.grammar.expected j).map π).map e'.grammar.symbols.name := by
    rw [List.map_map]
    exact List.map_congr_left fun s _ => (h.renames.name s).symm
  rw [hnames]
  exact hperm.map _

theorem refuse (hj : At e.grammar.analysis j path)
    (hj' : At e'.grammar.analysis j' (path.map π)) (t : Token) :
    SameResult (ν := ν) e.grammar e'.grammar (.error (e.refuse j t)) (.error (e'.refuse j' t)) := by
  rw [Engine.refuse, Engine.refuse]
  split
  · exact .error (.same _)
  · exact .error (.expected _ _ (h.expected hj hj'))

theorem top (hf : List.Forall₂ (Frame.Renamed π) frames frames')
    (hs : Stands e.grammar.analysis frames) (hs' : Stands e'.grammar.analysis frames') :
    At e.grammar.analysis (topState frames) (spelled frames) ∧
      At e'.grammar.analysis (topState frames') ((spelled frames).map π) := by
  obtain ⟨_, hconf⟩ := h.configured
  obtain ⟨_, hconf'⟩ := h.configured'
  refine ⟨hs.top hconf.tracks.first, ?_⟩
  rw [← spelled_of_forall₂ hf]
  exact hs'.top hconf'.tracks.first

/-- Both stacks go on to related states with a symbol that one of them can go on with. -/
theorem exists_next (hf : List.Forall₂ (Frame.Renamed π) frames frames')
    (hs : Stands e.grammar.analysis frames) (hs' : Stands e'.grammar.analysis frames')
    {s : SymbolId} (hregistered : e.grammar.symbols.Registered s) {next : Nat}
    (hnext : (e.grammar.state (topState frames)).shift? s = some next) (child : Child ν)
    (span : Span) : ∃ next', (e'.grammar.state (topState frames')).shift? (π s) = some next' ∧
      List.Forall₂ (Frame.Renamed π) (⟨s, child, span, next⟩ :: frames)
        (⟨π s, child, span, next'⟩ :: frames') ∧
      Stands e.grammar.analysis (⟨s, child, span, next⟩ :: frames) ∧
      Stands e'.grammar.analysis (⟨π s, child, span, next'⟩ :: frames') := by
  obtain ⟨_, hconf⟩ := h.configured
  obtain ⟨_, hconf'⟩ := h.configured'
  obtain ⟨hj, hj'⟩ := h.top hf hs hs'
  have hsome := (h.cell hj hj' hregistered).1
  rw [hnext, Option.isSome_some, Option.isSome_iff_exists] at hsome
  obtain ⟨next', hnext'⟩ := hsome
  exact ⟨next', hnext', .cons ⟨rfl, rfl, rfl⟩ hf, ⟨(hconf.tracks.shift hj hnext).1, hs⟩,
    (hconf'.tracks.shift (hs'.top hconf'.tracks.first) hnext').1, hs'⟩

variable (hc : Config.Beside e e' π R c c')
include hc

omit h in
/-- A reduction takes frames with the same children and the same places off both stacks. -/
theorem popped_eq {rule rule' : Rule} (hr : Rule.Renamed π rule rule') :
    (popped c' rule').map (·.child) = (popped c rule).map (·.child) ∧
      spanOf (popped c' rule') t = spanOf (popped c rule) t := by
  have hpopped : List.Forall₂ (Frame.Renamed π) (popped c rule) (popped c' rule') := by
    rw [popped, popped, hr.rhs, List.length_map, List.forall₂_reverse_iff]
    exact List.forall₂_take _ hc.frames
  refine ⟨map_eq_of_forall₂ (fun _ _ hf => hf.child) hpopped, ?_⟩
  rw [spanOf, spanOf, map_eq_of_forall₂ (fun _ _ hf => hf.span) hpopped]

theorem call {rule rule' : Rule} (hr : Rule.Renamed π rule rule') :
    (e'.call c' t rule').1 = (e.call c t rule).1 ∧
      R (e.call c t rule).2 (e'.call c' t rule').2 := by
  obtain ⟨hchildren, hspan⟩ := Beside.popped_eq (t := t) hc hr
  rw [Engine.call, Engine.call, hchildren, hspan]
  exact h.answer hc.parser.builder hr _ _

theorem reduce {s : SymbolId} {i : Nat} {rule rule' : Rule}
    (hreduce : (e.grammar.state (topState c.frames)).reduce? s = some i) (hi : i ≠ 0)
    (hrule : e.grammar.rules[i]? = some rule) (hr : Rule.Renamed π rule rule') :
    Progress.Beside e e' π R (e.reduce c t rule) (e'.reduce c' t rule') := by
  obtain ⟨_, hconf⟩ := h.configured
  obtain ⟨rule₀, next, hrule₀, hle, -, hnext, -⟩ := hconf.reduction hc.stands hreduce hi
  obtain rfl := Option.some.inj (hrule.symm.trans hrule₀)
  have hlen : rule'.rhs.length = rule.rhs.length := by rw [hr.rhs, List.length_map]
  have hle' : rule'.rhs.length ≤ c'.frames.length := by
    rw [hlen, ← hc.frames.length_eq]
    exact hle
  obtain ⟨-, hspan⟩ := Beside.popped_eq (t := t) hc hr
  obtain ⟨hanswer, hb⟩ := h.call (t := t) hc hr
  rw [reduce_eq hle, reduce_eq hle']
  generalize e.call c t rule = called at hanswer hb
  generalize e'.call c' t rule' = called' at hanswer hb
  obtain ⟨answer, b⟩ := called
  obtain ⟨answer', b'⟩ := called'
  obtain rfl : answer' = answer := hanswer
  have hparser : Parser.Beside R { c.parser with builder := b } { c'.parser with builder := b' } :=
    ⟨hc.parser.source, hb, hc.parser.stats⟩
  cases answer' with
  | error err => exact .done (.error (.same err)) hparser
  | ok n =>
    cases n with
    | none =>
      simp only [answered, hspan, hr.id]
      exact .done (.error (.same _)) hparser
    | some n =>
      have hbelow : List.Forall₂ (Frame.Renamed π) (below c rule) (below c' rule') := by
        rw [below, below, hlen]
        exact List.forall₂_drop _ hc.frames
      have hnext : (e.grammar.state (topState (below c rule))).shift? rule.lhs = some next := hnext
      obtain ⟨next', hnext', hframes, hstands, hstands'⟩ := h.exists_next hbelow
        (hc.stands.drop _) (hc.stands'.drop _)
        (hconf.wellFormed.registered rule (List.mem_of_getElem? hrule)) hnext (.node n)
        (spanOf (popped c rule) t)
      rw [← hr.lhs] at hnext' hframes hstands'
      simp only [answered]
      rw [push_eq hnext, push_eq hnext', hspan]
      refine .more ⟨hframes, rfl, ⟨hc.parser.source, hb, ?_⟩, hstands, hstands'⟩
      simp only [hc.parser.stats]

theorem accept (t : Token) : Progress.Beside e e' π R (e.accept c t) (e'.accept c' t) := by
  obtain ⟨hj, hj'⟩ := h.top hc.frames hc.stands hc.stands'
  have hrefused := Progress.Beside.done (π := π) (h.refuse hj hj' t) hc.parser
  obtain ⟨frames, ahead, p⟩ := c
  obtain ⟨frames', ahead', p'⟩ := c'
  have hframes : List.Forall₂ (Frame.Renamed π) frames frames' := hc.frames
  cases hframes with
  | nil => exact hrefused
  | @cons f f' below below' hf hbelow =>
    obtain ⟨s, child, span, next⟩ := f
    obtain ⟨s', child', span', next'⟩ := f'
    obtain rfl : child' = child := hf.child
    cases child' with
    | token t' => cases hbelow <;> exact hrefused
    | node n =>
      cases hbelow with
      | nil => exact .done (.ok n) hc.parser
      | cons => exact hrefused

theorem act (t : Token) : Progress.Beside e e' π R (e.act c t) (e'.act c' t) := by
  obtain ⟨_, hconf⟩ := h.configured
  obtain ⟨hj, hj'⟩ := h.top hc.frames hc.stands hc.stands'
  have hrefused := Progress.Beside.done (π := π) (h.refuse hj hj' t) hc.parser
  rw [Engine.act, Engine.act, h.byType?]
  cases hs : e.grammar.symbols.byType? t.type with
  | none => exact hrefused
  | some s =>
    have hregistered := Registry.registered_of_isTerminal (Registry.isTerminal_of_byType? hs)
    obtain ⟨hshift, hreduce⟩ := h.cell hj hj' hregistered
    simp only [Option.map_some]
    cases hnext : (e.grammar.state (topState c.frames)).shift? s with
    | some next =>
      obtain ⟨next', hnext', hframes, hstands, hstands'⟩ :=
        h.exists_next hc.frames hc.stands hc.stands' hregistered hnext (.token t) t.span
      simp only [hnext']
      refine .more ⟨hframes, rfl, ⟨hc.parser.source, hc.parser.builder, ?_⟩, hstands, hstands'⟩
      simp only [shift, hc.parser.stats]
    | none =>
      rw [hnext, Option.isSome_none, Option.isSome_eq_false_iff, Option.isNone_iff_eq_none]
        at hshift
      cases hi : (e.grammar.state (topState c.frames)).reduce? s with
      | none =>
        rw [hi, Option.map_none] at hreduce
        simp only [hshift, hreduce]
        exact hrefused
      | some i =>
        rw [hi, Option.map_some] at hreduce
        cases i with
        | zero =>
          rw [h.renames.top] at hreduce
          simp only [hshift, hreduce]
          exact h.accept hc t
        | succ i =>
          obtain ⟨rule, _, hrule, -⟩ := hconf.reduction hc.stands hi (Nat.succ_ne_zero i)
          obtain ⟨rule', hrule', hr⟩ := h.renames.exists_rule hrule
          obtain ⟨i', hi'⟩ : ∃ i', σ (i + 1) = i' + 1 := by
            refine Nat.exists_eq_succ_of_ne_zero fun hzero => Nat.succ_ne_zero i ?_
            exact σ.injective (hzero.trans h.renames.top.symm)
          rw [hi'] at hreduce hrule'
          simp only [hshift, hreduce, hrule, hrule']
          exact h.reduce hc hi (Nat.succ_ne_zero i) hrule hr

theorem fetch : Progress.Beside e e' π R (e.fetch c) (e'.fetch c') := by
  rw [Engine.fetch, Engine.fetch, h.source, hc.parser.source]
  rcases e.source.next c.parser.source with ⟨result, source⟩
  cases result with
  | error err => exact .done (.error (.same err)) ⟨rfl, hc.parser.builder, hc.parser.stats⟩
  | ok t =>
    refine .more ⟨hc.frames, rfl, ⟨rfl, hc.parser.builder, ?_⟩, hc.stands, hc.stands'⟩
    simp only [hc.parser.stats]

theorem step : Progress.Beside e e' π R (e.step c) (e'.step c') := by
  rw [Engine.step, Engine.step, hc.ahead]
  cases c.ahead with
  | none => exact h.fetch hc
  | some t => exact h.act hc t

omit hc in
theorem run (fuel : Nat) (hc : Config.Beside e e' π R c c') :
    Option.Rel (fun r r' => SameResult e.grammar e'.grammar r.1 r'.1 ∧ r.2.Beside R r'.2)
      (e.run fuel c) (e'.run fuel c') := by
  induction fuel generalizing c c' with
  | zero => exact .none
  | succ fuel ih =>
    have hstep := h.step hc
    rw [Engine.run, Engine.run]
    generalize e.step c = progress at hstep
    generalize e'.step c' = progress' at hstep
    cases hstep with
    | done hresult hparser => exact .some ⟨hresult, hparser⟩
    | more hc' => exact ih hc'

end Engine.Beside

namespace Grammar

/-- A parser for the configured grammar. -/
def engine (g : Grammar) (source : Source τ)
    (build : β → Nat → String → List (Child ν) → Span → Except ParseError (Option ν) × β) :
    Engine τ β ν :=
  ⟨g.configure.2, source, .named build g.symbols⟩

/-- The same calls have been made, and the builders are in the same state. -/
def SameCalls (g g' : Grammar) (b b' : β × List (Call ν)) : Prop :=
  b.1 = b'.1 ∧ b.2.map (Call.named g.symbols) = b'.2.map (Call.named g'.symbols)

theorem Renames.byType? (h : Renames g g' π σ) (hg : g.Built) (hg' : g'.Built)
    (type : TokenType) : g'.symbols.byType? type = (g.symbols.byType? type).map π := by
  have hfound : ∀ {g g' : Grammar} {π : Equiv.Perm SymbolId} {σ : Equiv.Perm Nat} {s : SymbolId},
      Renames g g' π σ → g'.Built → g.symbols.byType? type = some s →
      g'.symbols.byType? type = some (π s) := by
    intro g g' π σ s h hg' hs
    obtain ⟨name, hsym⟩ := Registry.get?_of_byType? hs
    exact hg'.symbols_built.distinct.byType?_eq ((h.get? s).trans hsym)
  cases hs : g.symbols.byType? type with
  | some s => exact hfound h hg' hs
  | none =>
    cases hs' : g'.symbols.byType? type with
    | none => rfl
    | some s' =>
      have hback := hfound h.symm hg hs'
      cases hs.symm.trans hback

theorem Renames.beside (h : Renames g g' π σ) (hg : g.Built) (hg' : g'.Built)
    (hok : g.configure.1 = .ok ()) (source : Source τ)
    (build : β → Nat → String → List (Child ν) → Span → Except ParseError (Option ν) × β) :
    (g.engine source build).recorded.Beside (g'.engine source build).recorded π σ
      (SameCalls g g') := by
  have hok' := (h.configure_ok hg hg').mp hok
  have hc : g.configure = (.ok (), g.configure.2) := Prod.ext hok rfl
  have hc' : g'.configure = (.ok (), g'.configure.2) := Prod.ext hok' rfl
  obtain ⟨hsymbols, hrules, -⟩ := g.configure_keeps
  obtain ⟨hsymbols', hrules', -⟩ := g'.configure_keeps
  refine ⟨h.configure, Configured.of_ok hg hc, Configured.of_ok hg' hc', ?_, ?_, rfl, ?_⟩
  · exact h.configure.byType? hg.configure hg'.configure
  · intro j j' path s hj hj' hs
    have hj : At g.configure.2.analysis j path := hj
    have hj' : At g'.configure.2.analysis j' (path.map π) := hj'
    have hs : g.configure.2.symbols.Registered s := hs
    rw [analysis_eq hsymbols hrules] at hj
    rw [analysis_eq hsymbols' hrules'] at hj'
    rw [hsymbols] at hs
    exact h.cell hg hg' hok hj hj' hs
  · rintro ⟨b, calls⟩ ⟨b', calls'⟩ rule rule' ⟨hb, hcalls⟩ hr children span
    obtain rfl : b = b' := hb
    have hname : g'.symbols.name rule'.lhs = g.symbols.name rule.lhs := by
      rw [hr.lhs, h.name]
    have happly : (Builder.named build g'.symbols).apply b rule'.lhs rule' children span =
        (Builder.named build g.symbols).apply b rule.lhs rule children span := by
      simp only [Builder.named, hr.id, hname]
    simp only [recorded, engine, Builder.recorded, happly, SameCalls, true_and, List.map_append,
      List.map_cons, List.map_nil, Call.named, hr.id, hname]
    exact congrArg (· ++ _) hcalls

/-- The order of the symbols and rules of a grammar does not matter. Configuring succeeds for both
orders or for none, with as many item sets, and the two parsers make the same calls and come to the
same end, or to none. -/
theorem order_irrelevant (hg : g.Built) (hg' : g'.Built) (h : Alike g g') :
    (g.configure.1 = .ok () ↔ g'.configure.1 = .ok ()) ∧
    g.configure.2.rows.length = g'.configure.2.rows.length ∧
    (g.configure.1 = .ok () → ∀ {τ β ν : Type} (source : Source τ)
      (build : β → Nat → String → List (Child ν) → Span → Except ParseError (Option ν) × β)
      (p : Parser τ β) (text : String) (fuel : Nat),
      ((g.engine source build).parse fuel p text = none ∧
        (g'.engine source build).parse fuel p text = none) ∨
      ∃ result result' q q',
        (g.engine source build).parse fuel p text = some (result, q.plain) ∧
        (g.engine source build).recorded.parse fuel p.recorded text = some (result, q) ∧
        (g'.engine source build).parse fuel p text = some (result', q'.plain) ∧
        (g'.engine source build).recorded.parse fuel p.recorded text = some (result', q') ∧
        SameResult g.configure.2 g'.configure.2 result result' ∧
        q.builder.2.map (Call.named g.symbols) = q'.builder.2.map (Call.named g'.symbols) ∧
        q'.plain = q.plain) := by
  obtain ⟨π, σ, hrenames⟩ := h.exists_renames hg hg'
  refine ⟨hrenames.configure_ok hg hg', hrenames.length_rows hg hg', ?_⟩
  intro hok τ β ν source build p text fuel
  have hok' := (hrenames.configure_ok hg hg').mp hok
  have hbeside := hrenames.beside hg hg' hok source build
  have hstart : Config.Beside (g.engine source build).recorded (g'.engine source build).recorded π
      (SameCalls g g') ((g.engine source build).recorded.start p.recorded text)
      ((g'.engine source build).recorded.start p.recorded text) :=
    ⟨.nil, rfl, ⟨rfl, ⟨rfl, rfl⟩, rfl⟩, trivial, trivial⟩
  have hrun := hbeside.run fuel hstart
  have hparse : ∀ {g : Grammar}, g.Built → g.configure.1 = .ok () →
      (g.engine source build).recorded.parse fuel p.recorded text =
        (g.engine source build).recorded.run fuel
          ((g.engine source build).recorded.start p.recorded text) := by
    intro g hg hok
    rw [Engine.parse]
    exact if_pos (isConfigured_of_ok hg (Prod.ext hok rfl))
  rw [← hparse hg hok, ← hparse hg' hok'] at hrun
  rw [parse_recorded (g.engine source build), parse_recorded (g'.engine source build)]
  generalize (g.engine source build).recorded.parse fuel p.recorded text = ended at hrun
  generalize (g'.engine source build).recorded.parse fuel p.recorded text = ended' at hrun
  cases hrun with
  | none => exact Or.inl ⟨rfl, rfl⟩
  | @some r r' hsame =>
    obtain ⟨hresult, hparser⟩ := hsame
    refine Or.inr ⟨r.1, r'.1, r.2, r'.2, rfl, rfl, rfl, rfl, hresult, hparser.builder.2, ?_⟩
    simp only [Parser.plain, hparser.source, hparser.stats, ← hparser.builder.1]

/-- The symbols and rules of `chain` in the opposite order. -/
def turned : Grammar :=
  (((new ⟨Registry.new.symbols ++ [⟨"x", .terminal 120⟩, ⟨"S", .nonterminal⟩]⟩).setStart 3).addRule
    { id := 2, lhs := 3, rhs := [] }).addRule { id := 1, lhs := 3, rhs := [2, 3] }

theorem turned_built : turned.Built := by
  refine .addRule (.addRule (.setStart (.new ?_) ?_) ?_) ?_
  · exact Registry.built_of_nodup (by decide) (by decide) (by decide)
  · decide +kernel
  · decide +kernel
  · decide +kernel

theorem chain_alike_turned : chain.Alike turned where
  symbols := by decide +kernel
  clients := by decide +kernel
  start := by decide +kernel
  precedence? _ _ _ _ _ := rfl
  assoc? _ _ _ _ _ := rfl

theorem chain_order_irrelevant : turned.configure.1 = .ok () ∧
    chain.configure.2.rows.length = turned.configure.2.rows.length ∧
    ∃ (n : Nat) (q q' : Parser Replay (Nat × List (Call Nat))),
      (chain.engine Replay.source fun b _ _ _ _ => (.ok (some b), b + 1)).parse 9
        ⟨.ofTokens [.punct (.single 0) 'x'], 0, {}⟩ "" = some (.ok n, q.plain) ∧
      (turned.engine Replay.source fun b _ _ _ _ => (.ok (some b), b + 1)).parse 9
        ⟨.ofTokens [.punct (.single 0) 'x'], 0, {}⟩ "" = some (.ok n, q'.plain) ∧
      q.builder.2.map (Call.named chain.symbols) =
        q'.builder.2.map (Call.named turned.symbols) := by
  have hok : chain.configure.1 = .ok () := by decide +kernel
  obtain ⟨hiff, hrows, hruns⟩ := order_irrelevant chain_built turned_built chain_alike_turned
  have hfirst : ((chain.engine Replay.source fun b _ _ _ _ => (.ok (some b), b + 1)).parse 9
      ⟨.ofTokens [.punct (.single 0) 'x'], 0, {}⟩ "").map (·.1.toOption.isSome) =
        some true := by decide +kernel
  refine ⟨hiff.mp hok, hrows, ?_⟩
  rcases hruns hok Replay.source (fun b _ _ _ _ => (.ok (some b), b + 1))
    ⟨.ofTokens [.punct (.single 0) 'x'], 0, {}⟩ "" 9 with
    ⟨hnone, -⟩ | ⟨result, result', q, q', hq, -, hq', -, hresult, hcalls, -⟩
  · rw [hnone] at hfirst
    cases hfirst
  · rw [hq] at hfirst
    cases hresult with
    | ok n => exact ⟨n, q, q', hq, hq', hcalls⟩
    | error => cases hfirst

end Grammar

end CanonicalLR

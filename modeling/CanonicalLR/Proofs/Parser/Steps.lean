import CanonicalLR.Parser.Basic
import Mathlib.Tactic.Common

/-! What a step of the parser can do, and the steps of a run with the tokens they shift. -/

namespace CanonicalLR.Engine

variable {σ β ν : Type} {e : Engine σ β ν} {c c' c₀ : Config σ β ν}

/-- The effects of a step, each with the guards under which the step has it. -/
inductive Effect (e : Engine σ β ν) (c : Config σ β ν) : Progress σ β ν → Prop where
  | broken {err : ParseError} {source : σ} : c.ahead = none →
      e.source.next c.parser.source = (.error err, source) →
      Effect e c (.done (.error err) { c.parser with source })
  | fetched {t : Token} {source : σ} : c.ahead = none →
      e.source.next c.parser.source = (.ok t, source) →
      Effect e c (.more
        { c with
          ahead := if t.isTrivia then none else some t
          parser :=
            { c.parser with
              source, stats := { c.parser.stats with tokens := c.parser.stats.tokens + 1 } } })
  | unknown {t : Token} : c.ahead = some t → e.grammar.symbols.byType? t.type = none →
      Effect e c (.done (.error (e.refuse (topState c.frames) t)) c.parser)
  | stuck {t : Token} {s : SymbolId} : c.ahead = some t →
      e.grammar.symbols.byType? t.type = some s →
      (e.grammar.state (topState c.frames)).shift? s = none →
      (e.grammar.state (topState c.frames)).reduce? s = none →
      Effect e c (.done (.error (e.refuse (topState c.frames) t)) c.parser)
  | shifted {t : Token} {s : SymbolId} {next : Nat} : c.ahead = some t →
      e.grammar.symbols.byType? t.type = some s →
      (e.grammar.state (topState c.frames)).shift? s = some next →
      Effect e c (.more (shift c t s next))
  | accepted {t : Token} {s : SymbolId} : c.ahead = some t →
      e.grammar.symbols.byType? t.type = some s →
      (e.grammar.state (topState c.frames)).shift? s = none →
      (e.grammar.state (topState c.frames)).reduce? s = some 0 →
      Effect e c (e.accept c t)
  | lost {t : Token} {s : SymbolId} {i : Nat} : c.ahead = some t →
      e.grammar.symbols.byType? t.type = some s →
      (e.grammar.state (topState c.frames)).shift? s = none →
      (e.grammar.state (topState c.frames)).reduce? s = some i → e.grammar.rules[i]? = none →
      Effect e c (.done (.error (e.refuse (topState c.frames) t)) c.parser)
  | reduced {t : Token} {s : SymbolId} {i : Nat} {rule : Rule} : c.ahead = some t →
      e.grammar.symbols.byType? t.type = some s →
      (e.grammar.state (topState c.frames)).shift? s = none →
      (e.grammar.state (topState c.frames)).reduce? s = some i → i ≠ 0 →
      e.grammar.rules[i]? = some rule → Effect e c (e.reduce c t rule)

theorem act_effect {t : Token} (ht : c.ahead = some t) : Effect e c (e.act c t) := by
  unfold act
  cases hs : e.grammar.symbols.byType? t.type with
  | none => exact .unknown ht hs
  | some s =>
    simp only
    cases hshift : (e.grammar.state (topState c.frames)).shift? s with
    | some next => exact .shifted ht hs hshift
    | none =>
      cases hreduce : (e.grammar.state (topState c.frames)).reduce? s with
      | none => exact .stuck ht hs hshift hreduce
      | some i =>
        cases i with
        | zero => exact .accepted ht hs hshift hreduce
        | succ i =>
          simp only
          cases hrule : e.grammar.rules[i + 1]? with
          | none => exact .lost ht hs hshift hreduce hrule
          | some rule => exact .reduced ht hs hshift hreduce (Nat.succ_ne_zero i) hrule

theorem fetch_effect (h : c.ahead = none) : Effect e c (e.fetch c) := by
  rcases hn : e.source.next c.parser.source with ⟨result, source⟩
  cases result with
  | error err =>
    have he : e.fetch c = .done (.error err) { c.parser with source } := by simp only [fetch, hn]
    rw [he]
    exact .broken h hn
  | ok t =>
    have hh : Effect e c _ := .fetched h hn
    simpa only [fetch, hn] using hh

theorem step_effect (e : Engine σ β ν) (c : Config σ β ν) : Effect e c (e.step c) := by
  unfold step
  cases ht : c.ahead with
  | none => exact fetch_effect ht
  | some t => exact act_effect ht

def popped (c : Config σ β ν) (rule : Rule) : List (Frame ν) :=
  (c.frames.take rule.rhs.length).reverse

def below (c : Config σ β ν) (rule : Rule) : List (Frame ν) := c.frames.drop rule.rhs.length

def call (e : Engine σ β ν) (c : Config σ β ν) (t : Token) (rule : Rule) :
    Except ParseError (Option ν) × β :=
  e.builder.apply c.parser.builder rule.lhs rule ((popped c rule).map (·.child))
    (spanOf (popped c rule) t)

def answered (e : Engine σ β ν) (c : Config σ β ν) (t : Token) (rule : Rule) :
    Except ParseError (Option ν) × β → Progress σ β ν
  | (.error err, builder) => .done (.error err) { c.parser with builder }
  | (.ok none, builder) =>
    .done (.error (.unhandledReduction (spanOf (popped c rule) t) rule.id))
      { c.parser with builder }
  | (.ok (some n), builder) =>
    e.push t rule (below c rule) (spanOf (popped c rule) t) n { c.parser with builder }

theorem reduce_eq {t : Token} {rule : Rule} (hlen : rule.rhs.length ≤ c.frames.length) :
    e.reduce c t rule = e.answered c t rule (e.call c t rule) := by
  have hnot : ¬ c.frames.length < rule.rhs.length := Nat.not_lt.mpr hlen
  rcases hb : e.call c t rule with ⟨answer, builder⟩
  unfold reduce
  rw [if_neg hnot]
  extract_lets frames span
  have hb' : e.builder.apply c.parser.builder rule.lhs rule (frames.map (·.child)) span =
      (answer, builder) := hb
  rw [hb']
  cases answer with
  | error err => rfl
  | ok n => cases n <;> rfl

theorem push_eq {t : Token} {rule : Rule} {frames : List (Frame ν)} {span : Span} {n : ν}
    {p : Parser σ β} {next : Nat}
    (h : (e.grammar.state (topState frames)).shift? rule.lhs = some next) :
    e.push t rule frames span n p = .more ⟨⟨rule.lhs, .node n, span, next⟩ :: frames, some t,
      { p with stats := { p.stats with reductions := p.stats.reductions + 1 } }⟩ := by
  simp only [push, h]

theorem push_of_none {t : Token} {rule : Rule} {frames : List (Frame ν)} {span : Span} {n : ν}
    {p : Parser σ β} (h : (e.grammar.state (topState frames)).shift? rule.lhs = none) :
    e.push t rule frames span n p = .done (.error (e.refuse (topState frames) t)) p := by
  simp only [push, h]

theorem reduce_of_lt {t : Token} {rule : Rule} (h : c.frames.length < rule.rhs.length) :
    e.reduce c t rule = .done (.error (e.refuse (topState c.frames) t)) c.parser := by
  simp only [reduce, if_pos h]

/-- A reduction ends in an error, or the builder answers with a node and a frame for it is pushed
on those below. -/
theorem reduce_cases (e : Engine σ β ν) (c : Config σ β ν) (t : Token) (rule : Rule) :
    (∃ err p, e.reduce c t rule = .done (.error err) p) ∨
      ∃ n builder next stats, rule.rhs.length ≤ c.frames.length ∧
        e.call c t rule = (.ok (some n), builder) ∧
        (e.grammar.state (topState (below c rule))).shift? rule.lhs = some next ∧
        e.reduce c t rule =
          .more ⟨⟨rule.lhs, .node n, spanOf (popped c rule) t, next⟩ :: below c rule, some t,
            ⟨c.parser.source, builder, stats⟩⟩ := by
  rcases Nat.lt_or_ge c.frames.length rule.rhs.length with hlt | hlen
  · exact Or.inl ⟨_, _, reduce_of_lt hlt⟩
  · rw [reduce_eq hlen]
    rcases hcall : e.call c t rule with ⟨answer, builder⟩
    cases answer with
    | error err => exact Or.inl ⟨_, _, rfl⟩
    | ok n =>
      cases n with
      | none => exact Or.inl ⟨_, _, rfl⟩
      | some n =>
        cases hnext : (e.grammar.state (topState (below c rule))).shift? rule.lhs with
        | none => exact Or.inl ⟨_, _, push_of_none hnext⟩
        | some next => exact Or.inr ⟨n, builder, next, _, hlen, rfl, rfl, push_eq hnext⟩

theorem reduce_ne_ok (c : Config σ β ν) (t : Token) (rule : Rule) (n : ν) (p : Parser σ β) :
    e.reduce c t rule ≠ .done (.ok n) p := by
  intro h
  rcases e.reduce_cases c t rule with ⟨_, _, he⟩ | ⟨_, _, _, _, _, _, _, he⟩
  · cases he.symm.trans h
  · cases he.symm.trans h

theorem accept_ne_more (c : Config σ β ν) (t : Token) : e.accept c t ≠ .more c' := by
  intro h
  unfold accept at h
  split at h <;> cases h

/-- A run that ends well leaves one frame on the stack, and its node is the result. -/
theorem accept_ok {t : Token} {n : ν} {p : Parser σ β} (h : e.accept c t = .done (.ok n) p) :
    p = c.parser ∧ ∃ f, c.frames = [f] ∧ f.child = .node n := by
  unfold accept at h
  split at h
  · next hframes =>
    cases h
    exact ⟨rfl, _, hframes, rfl⟩
  · cases h

/-- The configurations that a step leads to, each with the guards under which it does. -/
inductive Follows (e : Engine σ β ν) (c : Config σ β ν) : Config σ β ν → Prop where
  | fetched {t : Token} {source : σ} {stats : ParserStats} : c.ahead = none →
      e.source.next c.parser.source = (.ok t, source) →
      Follows e c
        ⟨c.frames, if t.isTrivia then none else some t, ⟨source, c.parser.builder, stats⟩⟩
  | shifted {t : Token} {s : SymbolId} {next : Nat} : c.ahead = some t →
      e.grammar.symbols.byType? t.type = some s →
      (e.grammar.state (topState c.frames)).shift? s = some next → Follows e c (shift c t s next)
  | reduced {t : Token} {s : SymbolId} {i : Nat} {rule : Rule} {n : ν} {builder : β} {next : Nat}
      {stats : ParserStats} : c.ahead = some t → e.grammar.symbols.byType? t.type = some s →
      (e.grammar.state (topState c.frames)).shift? s = none →
      (e.grammar.state (topState c.frames)).reduce? s = some i → i ≠ 0 →
      e.grammar.rules[i]? = some rule → rule.rhs.length ≤ c.frames.length →
      e.call c t rule = (.ok (some n), builder) →
      (e.grammar.state (topState (below c rule))).shift? rule.lhs = some next →
      Follows e c ⟨⟨rule.lhs, .node n, spanOf (popped c rule) t, next⟩ :: below c rule, some t,
        ⟨c.parser.source, builder, stats⟩⟩

theorem follows_of_more (h : e.step c = .more c') : Follows e c c' := by
  have heffect := e.step_effect c
  rw [h] at heffect
  generalize hp : Progress.more c' = progress at heffect
  cases heffect with
  | broken => cases hp
  | fetched hahead hnext =>
    cases hp
    exact .fetched hahead hnext
  | unknown => cases hp
  | stuck => cases hp
  | lost => cases hp
  | shifted hahead ht hshift =>
    cases hp
    exact .shifted hahead ht hshift
  | accepted => exact absurd hp.symm (accept_ne_more _ _)
  | @reduced t s i rule hahead ht hshift hreduce hi hrule =>
    rcases e.reduce_cases c t rule with ⟨_, _, he⟩ | ⟨_, _, _, _, hlen, hcall, hnext, he⟩
    · cases hp.trans he
    · cases hp.trans he
      exact .reduced hahead ht hshift hreduce hi hrule hlen hcall hnext

theorem accept_of_done {n : ν} {p : Parser σ β} (h : e.step c = .done (.ok n) p) :
    ∃ t s, c.ahead = some t ∧ e.grammar.symbols.byType? t.type = some s ∧
      (e.grammar.state (topState c.frames)).shift? s = none ∧
      (e.grammar.state (topState c.frames)).reduce? s = some 0 ∧
      e.accept c t = .done (.ok n) p := by
  have heffect := e.step_effect c
  rw [h] at heffect
  generalize hp : Progress.done (Except.ok n) p = progress at heffect
  cases heffect with
  | broken => cases hp
  | fetched => cases hp
  | unknown => cases hp
  | stuck => cases hp
  | lost => cases hp
  | shifted => cases hp
  | accepted hahead ht hshift hreduce => exact ⟨_, _, hahead, ht, hshift, hreduce, rfl⟩
  | reduced => exact absurd hp.symm (reduce_ne_ok _ _ _ _ _)

theorem fetched_of_more (hahead : c.ahead = none) (h : e.step c = .more c') :
    ∃ t source stats, e.source.next c.parser.source = (.ok t, source) ∧
      c' = ⟨c.frames, if t.isTrivia then none else some t, ⟨source, c.parser.builder, stats⟩⟩ := by
  cases follows_of_more h with
  | fetched _ hnext => exact ⟨_, _, _, hnext, rfl⟩
  | shifted hsome => cases hahead.symm.trans hsome
  | reduced hsome => cases hahead.symm.trans hsome

theorem exists_reduce_of_kept (h : e.step c = .more c') {t t' : Token} (ht : c.ahead = some t)
    (hkept : c'.ahead = some t') {s : SymbolId} (hs : e.grammar.symbols.byType? t.type = some s) :
    ∃ i, (e.grammar.state (topState c.frames)).reduce? s = some i := by
  cases follows_of_more h with
  | fetched hnone => cases hnone.symm.trans ht
  | shifted => cases hkept
  | reduced hahead hs' _ hreduce =>
    obtain rfl := Option.some.inj (hahead.symm.trans ht)
    obtain rfl := Option.some.inj (hs'.symm.trans hs)
    exact ⟨_, hreduce⟩

/-! Runs. -/

def shiftedBy (c c' : Config σ β ν) : List Token := if c'.ahead.isNone then c.ahead.toList else []

theorem shiftedBy_of_none (h : c.ahead = none) : shiftedBy c c' = [] := by
  simp [shiftedBy, h]

theorem shiftedBy_of_some {t : Token} (h : c.ahead = some t) (h' : c'.ahead = none) :
    shiftedBy c c' = [t] := by
  simp [shiftedBy, h, h']

theorem shiftedBy_of_kept {t : Token} (h : c'.ahead = some t) : shiftedBy c c' = [] := by
  simp [shiftedBy, h]

/-- Steps lead from the first configuration to the second and shift the tokens. -/
inductive Steps (e : Engine σ β ν) (c₀ : Config σ β ν) : List Token → Config σ β ν → Prop where
  | refl : Steps e c₀ [] c₀
  | step {tokens : List Token} {c c' : Config σ β ν} : Steps e c₀ tokens c →
      e.step c = .more c' → Steps e c₀ (tokens ++ shiftedBy c c') c'

theorem Steps.head {tokens : List Token} (h : e.step c₀ = .more c) (hs : Steps e c tokens c') :
    Steps e c₀ (shiftedBy c₀ c ++ tokens) c' := by
  induction hs with
  | refl =>
    rw [List.append_nil]
    exact .step .refl h
  | step _ hstep ih =>
    rw [← List.append_assoc]
    exact ih.step hstep

theorem steps_of_run {fuel : Nat} {r : Except ParseError ν × Parser σ β}
    (h : e.run fuel c₀ = some r) : ∃ tokens c, Steps e c₀ tokens c ∧ e.step c = .done r.1 r.2 := by
  induction fuel generalizing c₀ with
  | zero => cases h
  | succ fuel ih =>
    simp only [run] at h
    split at h
    · rename_i hdone
      obtain rfl := Option.some.inj h
      exact ⟨[], c₀, .refl, hdone⟩
    · rename_i c hmore
      obtain ⟨tokens, c', hs, hdone⟩ := ih h
      exact ⟨_, c', hs.head hmore, hdone⟩

def Halts (e : Engine σ β ν) (c : Config σ β ν) : Prop := ∃ fuel r, e.run fuel c = some r

theorem Halts.of_done {result : Except ParseError ν} {p : Parser σ β}
    (h : e.step c = .done result p) : e.Halts c :=
  ⟨1, (result, p), by simp [run, h]⟩

theorem Halts.of_more (h : e.step c = .more c') (hh : e.Halts c') : e.Halts c := by
  obtain ⟨fuel, r, hr⟩ := hh
  exact ⟨fuel + 1, r, by simp [run, h, hr]⟩

theorem Halts.of_step (h : ∀ c', e.step c = .more c' → e.Halts c') : e.Halts c := by
  cases hstep : e.step c with
  | done result p => exact .of_done hstep
  | more c' => exact .of_more hstep (h c' hstep)

end CanonicalLR.Engine

import CanonicalLR.Proofs.Parser.Reading

/-! What is left of the input when a parser accepts. The tokens it took from its source are those
that it shifted, the blanks between them, and the one ahead. This last one is the end of the input
unless a rule starts over from the symbol above the start symbol. -/

namespace CanonicalLR

open Engine

variable {σ β ν : Type} {e : Engine σ β ν} {start : SymbolId} {tokens : List Token}
  {c₀ c c' : Config σ β ν}

/-- The source hands out the tokens, in this order, between the two states. -/
inductive Taken (source : Source σ) (first : σ) : List Token → σ → Prop where
  | none : Taken source first [] first
  | next {ts : List Token} {t : Token} {state state' : σ} : Taken source first ts state →
      source.next state = (.ok t, state') → Taken source first (ts ++ [t]) state'

namespace Engine

/-- A step takes a token from the source, shifts the token ahead, or leaves both as they are. -/
theorem step_tokens (h : e.step c = .more c') :
    (∃ t, c.ahead = none ∧ e.source.next c.parser.source = (.ok t, c'.parser.source) ∧
        c'.ahead = if t.isTrivia then none else some t) ∨
      (∃ t, c.ahead = some t ∧ c'.ahead = none ∧ c'.parser.source = c.parser.source) ∨
      ∃ t, c.ahead = some t ∧ c'.ahead = some t ∧ c'.parser.source = c.parser.source := by
  cases follows_of_more h with
  | fetched hahead hnext => exact Or.inl ⟨_, hahead, hnext, rfl⟩
  | shifted hahead => exact Or.inr (Or.inl ⟨_, hahead, rfl, rfl⟩)
  | reduced hahead => exact Or.inr (Or.inr ⟨_, hahead, rfl, rfl⟩)

end Engine

theorem solid_append (ts more : List Token) : solid (ts ++ more) = solid ts ++ solid more :=
  List.filter_append ts more

theorem solid_singleton {t : Token} (h : t.isTrivia = false) : solid [t] = [t] := by
  simp [solid, h]

/-- Whatever the grammar, no token but a blank is lost between the source and the stack. -/
theorem Engine.Steps.taken (h : Steps e c₀ tokens c) (hahead : c₀.ahead = none) :
    ∃ ts, Taken e.source c₀.parser.source (ts ++ c.ahead.toList) c.parser.source ∧
      solid ts = tokens ∧ ∀ t, c.ahead = some t → t.isTrivia = false := by
  induction h with
  | refl => exact ⟨[], by simpa [hahead] using Taken.none, rfl, by simp [hahead]⟩
  | @step tokens c c' _ hstep ih =>
    obtain ⟨ts, htaken, rfl, htrivia⟩ := ih
    rcases step_tokens hstep with ⟨t, hnone, hnext, hnew⟩ | ⟨t, hsome, hnone, hsource⟩ |
      ⟨t, hsome, hkept, hsource⟩
    · rw [shiftedBy_of_none hnone, List.append_nil]
      rw [hnone, Option.toList_none, List.append_nil] at htaken
      by_cases ht : t.isTrivia = true
      · refine ⟨ts ++ [t], ?_, ?_, ?_⟩
        · simpa [hnew, ht] using htaken.next hnext
        · simp [solid, ht]
        · simp [hnew, ht]
      · refine ⟨ts, ?_, rfl, ?_⟩
        · simpa [hnew, ht] using htaken.next hnext
        · intro t' ht'
          rw [hnew, if_neg ht] at ht'
          cases ht'
          simpa using ht
    · rw [shiftedBy_of_some hsome hnone]
      refine ⟨ts ++ [t], ?_, ?_, by simp [hnone]⟩
      · simpa [hsome, hnone, hsource] using htaken
      · rw [solid_append, solid_singleton (htrivia t hsome)]
    · rw [shiftedBy_of_kept hkept, List.append_nil]
      refine ⟨ts, ?_, rfl, ?_⟩
      · simpa [hsome, hkept, hsource] using htaken
      · intro t' ht'
        exact htrivia t' (by rw [hsome, ← hkept, ht'])

theorem exists_steps_of_parse {fuel : Nat} {p : Parser σ β} {text : String} {n : ν}
    {p' : Parser σ β} (h : e.parse fuel p text = some (.ok n, p')) :
    ∃ tokens c, Steps e (e.start p text) tokens c ∧ e.step c = .done (.ok n) p' := by
  unfold parse at h
  split at h
  · exact steps_of_run h
  · cases h

theorem isEnd_of_accept (hready : e.grammar.Ready start) {p : Parser σ β} {text : String}
    (h : Steps e (e.start p text) tokens c) {n : ν} {p' : Parser σ β}
    (hdone : e.step c = .done (.ok n) p') {t : Token} (hahead : c.ahead = some t) :
    t.isEnd = true := by
  obtain ⟨t', s, hahead', ht, -, hreduce, -⟩ := accept_of_done hdone
  obtain rfl := Option.some.inj (hahead'.symm.trans hahead)
  obtain ⟨-, rfl, -⟩ := hready.acceptance (hready.stands h rfl) hreduce
  simpa [Token.isEnd] using hready.wellFormed.registry.byType?_eq_finish.mp ht

/-- When a parser accepts, every token that is not blank has been shifted but for the one ahead;
and this is the end of the input if no rule goes back to the symbol above the start symbol. -/
theorem accept_takes_all {g : Grammar} (hg : g.Built) (e : Engine σ β ν)
    (h : g.configure = (.ok (), e.grammar)) (p : Parser σ β) (text : String) {fuel : Nat} {n : ν}
    {p' : Parser σ β} (hparse : e.parse fuel p text = some (.ok n, p')) :
    ∃ ts t c, Taken e.source (e.source.setInput p.source text) (ts ++ [t]) p'.source ∧
      Steps e (e.start p text) (solid ts) c ∧ c.ahead = some t ∧ e.step c = .done (.ok n) p' ∧
      ((∀ rule ∈ g.clients, .start ∉ rule.rhs) → t.isEnd = true) := by
  obtain ⟨tokens, c, hsteps, hdone⟩ := exists_steps_of_parse hparse
  obtain ⟨t, s, hahead, -, -, -, haccept⟩ := accept_of_done hdone
  obtain ⟨rfl, -⟩ := accept_ok haccept
  obtain ⟨ts, htaken, rfl, -⟩ := hsteps.taken rfl
  rw [hahead] at htaken
  refine ⟨ts, t, c, htaken, hsteps, hahead, hdone, fun hc => ?_⟩
  obtain ⟨start, hready⟩ := Grammar.Ready.of_ok hg h hc
  exact isEnd_of_accept hready hsteps hdone hahead

theorem chain_accept_takes_all : ∃ ts t p',
    chainEngine.parse 9 (chainParser [.punct (.single 0) 'x']) "" = some (.ok 1, p') ∧
      Taken Replay.source (.ofTokens [.punct (.single 0) 'x']) (ts ++ [t]) p'.source ∧
      t.isEnd = true := by
  obtain ⟨p', hparse⟩ := chain_parse_x
  obtain ⟨ts, t, -, htaken, -, -, -, hend⟩ :=
    accept_takes_all Grammar.chain_built chainEngine chainEngine_configure _ "" hparse
  exact ⟨ts, t, p', hparse, htaken, hend (by decide +kernel)⟩

/-! A grammar that starts over, `S → $start +` and `S → *`: its parser accepts before a `+`. -/

def Grammar.nestedSymbols : Registry :=
  ⟨Registry.new.symbols ++ [⟨"S", .nonterminal⟩, ⟨"+", .terminal 43⟩, ⟨"*", .terminal 42⟩]⟩

def Grammar.nested : Grammar :=
  (((Grammar.new nestedSymbols).setStart 2).addRule { id := 1, lhs := 2, rhs := [.start, 3] }).addRule
    { id := 2, lhs := 2, rhs := [4] }

theorem Grammar.nested_built : nested.Built := by
  have hbuilt : nestedSymbols.Built :=
    Registry.built_of_nodup (by decide) (by decide) (by decide)
  refine .addRule (.addRule (.setStart (.new hbuilt) ?_) ?_) ?_
  · decide +kernel
  · decide +kernel
  · decide +kernel

def nestedEngine : Engine Replay Recorder Nat :=
  ⟨Grammar.nested.configure.2, Replay.source, Recorder.builder [] []⟩

theorem nestedEngine_configure : Grammar.nested.configure = (.ok (), nestedEngine.grammar) := by
  have hgrammar : nestedEngine.grammar = Grammar.nested.configure.2 := by rw [nestedEngine]
  have h : Grammar.nested.configure.1 = .ok () := by decide +kernel
  rw [hgrammar]
  exact (Prod.eta _).symm.trans (congrArg (·, Grammar.nested.configure.2) h)

theorem Taken.replay {first state : Replay} {ts : List Token}
    (h : Taken Replay.source first ts state) (hleft : state.pending ≠ []) :
    first.pending = ts.map .ok ++ state.pending := by
  induction h with
  | none => rfl
  | @next ts t state state' _ hnext ih =>
    rcases state with ⟨pending, length⟩
    cases pending with
    | nil =>
      cases hnext
      exact absurd rfl hleft
    | cons result rest =>
      cases hnext
      simpa using ih (List.cons_ne_nil _ _)

def nestedTokens : List Token :=
  [.punct (.single 0) '*', .punct (.single 1) '+', .punct (.single 2) '*']

theorem nested_accepts_early : Grammar.nested.Built ∧ ∃ p' tokens c t,
    Grammar.nested.configure = (.ok (), nestedEngine.grammar) ∧
      nestedEngine.parse 9 (chainParser nestedTokens) "" = some (.ok 0, p') ∧
      Steps nestedEngine (nestedEngine.start (chainParser nestedTokens) "") tokens c ∧
      nestedEngine.step c = .done (.ok 0) p' ∧ c.ahead = some t ∧ t.isEnd = false := by
  have hresult : (nestedEngine.parse 9 (chainParser nestedTokens) "").map
      (fun r => (r.1.toOption, r.2.source.pending.length)) = some (some 0, 1) := by decide +kernel
  obtain ⟨⟨result, p'⟩, hparse, hboth⟩ := Option.map_eq_some_iff.mp hresult
  obtain ⟨hok, hlength⟩ := Prod.mk.inj hboth
  obtain rfl := toOption_eq_some_iff.mp hok
  obtain ⟨tokens, c, hsteps, hdone⟩ := exists_steps_of_parse hparse
  obtain ⟨t, -, hahead, -, -, -, haccept⟩ := accept_of_done hdone
  obtain ⟨rfl, -⟩ := accept_ok haccept
  obtain ⟨ts, htaken, -, -⟩ := hsteps.taken rfl
  rw [hahead] at htaken
  obtain ⟨left, hleft⟩ : ∃ left, c.parser.source.pending = [left] :=
    List.length_eq_one_iff.mp hlength
  have hpending : nestedTokens.map .ok = (ts ++ [t]).map .ok ++ c.parser.source.pending :=
    htaken.replay (by simp [hleft])
  -- one token is left, so the last one that was taken is the second
  rw [hleft] at hpending
  obtain ⟨first, rfl⟩ : ∃ first, ts = [first] := by
    refine List.length_eq_one_iff.mp ?_
    simpa [nestedTokens] using (congrArg List.length hpending).symm
  obtain ⟨-, ht, -⟩ : _ ∧ _ ∧ _ := by simpa [nestedTokens] using hpending
  exact ⟨Grammar.nested_built, _, tokens, c, t, nestedEngine_configure, hparse, hsteps, hdone, hahead,
    by rw [← ht]; decide⟩

end CanonicalLR

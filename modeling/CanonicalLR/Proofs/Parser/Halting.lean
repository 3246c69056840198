import CanonicalLR.Proofs.Automaton.Depth
import CanonicalLR.Proofs.Parser.Reading

/-! When parsers end. Where no symbol comes back to itself before nothing but ends of the input, the
forest on the stack cannot outgrow the tokens, and every shift and every reduction makes it larger.
Where reductions never take the place of a shift, they come to an end before each token. A grammar
that has neither can keep its parser busy for ever. -/

namespace CanonicalLR

open Collection Engine

variable {σ β ν : Type} {e : Engine σ β ν} {start : SymbolId} {ts : List Token}
  {c c' : Config σ β ν}

/-- From this state on the source hands out end tokens alone, unless it fails. -/
def Spent (source : Source σ) (state : σ) : Prop :=
  ∃ spent : σ → Prop, spent state ∧ ∀ state t state', spent state →
    source.next state = (.ok t, state') → t.isEnd = true ∧ spent state'

/-- The source hands out the tokens and end tokens after them, unless it fails. -/
inductive Supplies (source : Source σ) : List Token → σ → Prop where
  | spent {state : σ} : Spent source state → Supplies source [] state
  | token {t : Token} {ts : List Token} {state state' : σ} :
      source.next state = (.ok t, state') → Supplies source ts state' →
      Supplies source (t :: ts) state

theorem Supplies.ends {source : Source σ} {state : σ} (h : Supplies source ts state) :
    Ends source state := by
  induction h with
  | @spent state hspent =>
    obtain ⟨spent, hstate, hnext⟩ := hspent
    rcases hn : source.next state with ⟨result, state'⟩
    cases result with
    | error err => exact .broken hn
    | ok t => exact .finish hn (hnext _ _ _ hstate hn).1
  | token hnext _ ih => exact .token hnext ih

theorem Supplies.next {source : Source σ} {state state' : σ} {t : Token}
    (h : Supplies source ts state) (hnext : source.next state = (.ok t, state')) :
    (∃ rest, ts = t :: rest ∧ Supplies source rest state') ∨
      (ts = [] ∧ t.isEnd = true ∧ Supplies source [] state') := by
  cases h with
  | spent hspent =>
    obtain ⟨spent, hstate, hall⟩ := hspent
    obtain ⟨hend, hstate'⟩ := hall _ _ _ hstate hnext
    exact Or.inr ⟨rfl, hend, .spent ⟨spent, hstate', hall⟩⟩
  | token hnext' hrest =>
    obtain ⟨ht, rfl⟩ := Prod.mk.inj (hnext.symm.trans hnext')
    obtain rfl := Except.ok.inj ht
    exact Or.inl ⟨_, rfl, hrest⟩

/-! Grammars without loops. -/

theorem Reduces.reaches {a : Analysis} {t : SymbolId} {rule : Rule} {path path' : List SymbolId}
    (h : Reduces a t rule path path') : ∃ i d ahead, Reaches a path' i d ahead := by
  cases h with
  | @pop before i hi hrule hr =>
    obtain ⟨before', hbefore, hstart⟩ := hr.pop hrule
    obtain rfl := List.append_cancel_right hbefore
    rcases hstart.zero_cases with ⟨-, h0, -⟩ | ⟨j, d, ahead, hr', rule', hrule', hdot, -⟩
    · exact absurd h0 hi
    · obtain rfl := Option.some.inj (hrule.symm.trans hrule')
      exact ⟨j, d + 1, ahead, hr'.shift hdot⟩

def loudTokens (ts : List Token) : Nat := ts.countP fun t => !t.isEnd

theorem loudness_of_byType? {r : Registry} (hr : r.Sound) {t : Token} {s : SymbolId}
    (ht : r.byType? t.type = some s) : loudness [s] = loudTokens [t] := by
  have hfinish : s = .finish ↔ t.type = TokenKind.finish.type := by
    rw [← hr.byType?_eq_finish, ht, Option.some.injEq]
  by_cases hs : s = .finish
  · simp [loudness, loudTokens, Token.isEnd, hs, hfinish.mp hs]
  · simp [loudness, loudTokens, Token.isEnd, hs, mt hfinish.mpr hs]

/-- A parser with so much room for the forest on its stack, and tokens to come. -/
structure Loaded (e : Engine σ β ν) (width loud room : Nat) (ts : List Token)
    (c : Config σ β ν) : Prop where
  supplies : Supplies e.source ts c.parser.source
  stands : Stands e.grammar.analysis c.frames
  fits : Fits e.grammar.analysis width loud room (spelled c.frames)
    (loudTokens (c.ahead.toList ++ ts))

/-- Falls with every token that is taken. -/
def pace (ts : List Token) (c : Config σ β ν) : Nat :=
  2 * ts.length + if c.ahead.isNone then 1 else 0

section Bounded

variable {width loud room : Nat} (hconf : e.grammar.Configured start)
  (hno : ¬ Looping e.grammar.symbols e.grammar.rules)
  (hwidth : ∀ rule ∈ e.grammar.rules, rule.rhs.length ≤ width)
include hconf hno hwidth

/-- Each step takes a token, or takes up room. -/
theorem Loaded.step (h : Loaded e width loud room ts c) (hstep : e.step c = .more c') :
    ∃ room' ts', Loaded e width loud room' ts' c' ∧
      (room' < room ∨ room' = room ∧ pace ts' c' < pace ts c) := by
  have hpos : 0 < e.grammar.analysis.rules.length := hconf.wellFormed.rules_pos
  obtain ⟨hsupplies, hstands, hfits⟩ := h
  have hadvance := hconf.advance hstands hstep
  have hstands' := hadvance.stands hstands
  cases hadvance with
  | @fetched t source stats hnone hnext =>
    rw [hnone, Option.toList_none, List.nil_append] at hfits
    rcases hsupplies.next hnext with ⟨rest, rfl, hrest⟩ | ⟨rfl, hend, hrest⟩
    · refine ⟨room, rest, ⟨hrest, hstands', ?_⟩, Or.inr ⟨rfl, ?_⟩⟩
      · by_cases htrivia : t.isTrivia = true
        · exact hfits.mono (by simp [htrivia, loudTokens, List.countP_cons])
        · exact hfits.mono (by simp [htrivia])
      · simp only [pace, List.length_cons]
        split <;> split <;> omega
    · refine ⟨room, [], ⟨hrest, hstands', ?_⟩, Or.inr ⟨rfl, ?_⟩⟩
      · exact hfits.mono (by simp [not_isTrivia_of_isEnd hend, loudTokens, hend])
      · simp [pace, hnone, not_isTrivia_of_isEnd hend]
  | @shifted t s next stats hsome ht hcan =>
    obtain ⟨i, d, ahead, hr, hdot⟩ := hcan
    have hloud : loudTokens (c.ahead.toList ++ ts) = loudness [s] + loudTokens ts := by
      rw [hsome, loudness_of_byType? hconf.wellFormed.registry ht]
      exact List.countP_append
    rw [hloud] at hfits
    obtain ⟨hroom, hfits'⟩ := hfits.shift hno hpos hwidth (Registry.isTerminal_of_byType? ht)
      (hr.shift hdot)
    refine ⟨room - 1, ts, ⟨hsupplies, hstands', ?_⟩, Or.inl (Nat.sub_one_lt_of_lt hroom)⟩
    rw [spelled_cons]
    exact hfits'
  | @reduced t s rule n next builder stats hsome ht hmem _ hsymbols hreduces =>
    obtain ⟨i, d, ahead, hr⟩ := hreduces.reaches
    have hroots : spelled c.frames = spelled (below c rule) ++ rule.rhs := by
      rw [← hsymbols]
      exact spelled_eq_append c.frames rule.rhs.length
    rw [hroots, hsome] at hfits
    obtain ⟨hroom, hfits'⟩ := hfits.reduce hno hpos hwidth hmem hr
    refine ⟨room - 1, ts, ⟨hsupplies, hstands', ?_⟩, Or.inl (Nat.sub_one_lt_of_lt hroom)⟩
    rw [spelled_cons]
    exact hfits'

theorem Loaded.halts (h : Loaded e width loud room ts c) : e.Halts c := by
  induction room using Nat.strong_induction_on generalizing ts c with
  | _ room ihroom =>
    generalize hn : pace ts c = n
    induction n using Nat.strong_induction_on generalizing ts c with
    | _ n ihpace =>
      subst hn
      refine .of_step fun c' hstep => ?_
      obtain ⟨room', ts', h', hroom | ⟨rfl, hpace⟩⟩ := h.step hconf hno hwidth hstep
      · exact ihroom room' hroom h'
      · exact ihpace _ hpace h' rfl

end Bounded

theorem Grammar.Configured.halts_of_not_looping (hconf : e.grammar.Configured start)
    (hno : ¬ Looping e.grammar.symbols e.grammar.rules) (p : Parser σ β) (text : String)
    (hts : Supplies e.source ts (e.source.setInput p.source text)) : e.Halts (e.start p text) := by
  obtain ⟨width, hwidth⟩ : ∃ width, ∀ rule ∈ e.grammar.rules, rule.rhs.length ≤ width :=
    ⟨_, fun rule hr => List.le_sum_of_mem (List.mem_map_of_mem (f := fun rule => rule.rhs.length) hr)⟩
  have hloaded : Loaded e width (loudTokens ts) (moveBound width (loudTokens ts)) ts
      (e.start p text) :=
    ⟨hts, trivial, [], [], .nil, by simp [loudness, Engine.start], Nat.le_add_left _ _⟩
  exact hloaded.halts hconf hno hwidth

/-! Grammars that give up no shift for a reduction. -/

def Grammar.KeepsShifts (g : Grammar) : Prop :=
  ∀ row ∈ g.rows, ∀ s, (row.set.shiftSymbols g.analysis).contains s = true →
    row.actions.reduce? s = none

instance (g : Grammar) : Decidable g.KeepsShifts :=
  inferInstanceAs (Decidable (∀ row ∈ g.rows, ∀ s,
    (row.set.shiftSymbols g.analysis).contains s = true → row.actions.reduce? s = none))

namespace Grammar

theorem row_of_at {g g' : Grammar} (hg : g.Built) (h : g.configure = (.ok (), g')) {j : Nat}
    {path : List SymbolId} (hj : At g.analysis j path) :
    ∃ row ∈ g'.rows, g'.state j = row.actions ∧ row.set.Spells g.analysis path := by
  obtain ⟨⟨start, hv⟩, -, -, -, hstates, -⟩ := configure_ok h
  obtain ⟨m, hm, hspells⟩ := hj
  obtain ⟨shifts, hshifts, -, hrow, hset⟩ := row_of_member hg (g.validate_ok.mpr ⟨start, hv⟩) hm
  have hget := g.getElem?_rowsOf g.analysis hm hshifts
  rw [h] at hrow
  refine ⟨_, List.mem_of_getElem? hrow, ?_, by rwa [hset]⟩
  simp [state, hstates, List.getD_eq_getElem?_getD, hget]

theorem KeepsShifts.sparing {g g' : Grammar} (hg : g.Built) (h : g.configure = (.ok (), g'))
    (hkeeps : g'.KeepsShifts) : g'.Sparing where
  unrivalled := unrivalled_of_ok hg h
  yields := by
    intro j i path s hat hreduce hshift
    have he := analysis_of_ok h
    obtain ⟨row, hrow, hstate, hspells⟩ := row_of_at hg h (he ▸ hat)
    have hnone := hkeeps row hrow s (he ▸ hspells.contains_shiftSymbols.mpr (he ▸ hshift))
    rw [hstate, hnone] at hreduce
    cases hreduce

end Grammar

/-- A parser ends on every finite input if no symbol of its grammar comes back to itself before
nothing but ends of the input, or if no rule holds the end of the input and no shift was given up
for a reduction. -/
theorem parse_halts {g : Grammar} (hg : g.Built) (e : Engine σ β ν)
    (h : g.configure = (.ok (), e.grammar))
    (hloops : ¬ Looping g.symbols g.rules ∨
      ((∀ rule ∈ g.clients, .finish ∉ rule.rhs) ∧ e.grammar.KeepsShifts))
    (p : Parser σ β) (text : String) (ts : List Token)
    (hts : Supplies e.source ts (e.source.setInput p.source text)) :
    ∃ fuel result, e.parse fuel p text = some result := by
  obtain ⟨start, hconf⟩ := Grammar.Configured.of_ok hg h
  obtain ⟨-, hsymbols, hrules, -⟩ := Grammar.configure_ok h
  have hhalts : e.Halts (e.start p text) := by
    rcases hloops with hno | ⟨hc, hkeeps⟩
    · rw [← hsymbols, ← hrules] at hno
      exact hconf.halts_of_not_looping hno p text hts
    · rw [Grammar.clients, ← hrules] at hc
      exact hconf.halts_of_ends (hkeeps.sparing hg h) (hconf.not_canShift_finish hc) hts.ends rfl
        trivial rfl
  obtain ⟨fuel, result, hrun⟩ := hhalts
  exact ⟨fuel, result, by rw [parse, if_pos (Grammar.isConfigured_of_ok hg h), hrun]⟩

theorem spent_replay (length : Nat) : Spent Replay.source ⟨[], length⟩ := by
  refine ⟨fun state => state.pending = [], rfl, fun state t state' hstate hnext => ?_⟩
  obtain ⟨pending, length⟩ := state
  subst hstate
  cases hnext
  exact ⟨rfl, rfl⟩

theorem chain_parse_halts : ∃ fuel result,
    chainEngine.parse fuel (chainParser [.punct (.single 0) 'x', .punct (.single 1) 'x']) "" =
      some result :=
  parse_halts Grammar.chain_built chainEngine chainEngine_configure
    (Or.inr ⟨by decide +kernel, by decide +kernel⟩)
    (chainParser [.punct (.single 0) 'x', .punct (.single 1) 'x']) ""
    [.punct (.single 0) 'x', .punct (.single 1) 'x']
    (.token rfl (.token rfl (.spent (spent_replay 2))))

/-! A grammar with a symbol that comes back to itself before nothing, `A → B A`, `A → y` and `B →`,
where the empty rule is given a higher level than `y`. Before a `y` its parser pushes `B` for ever. -/

def Grammar.hollowSymbols : Registry :=
  ⟨Registry.new.symbols ++ [⟨"A", .nonterminal⟩, ⟨"B", .nonterminal⟩, ⟨"y", .terminal 121⟩]⟩

def Grammar.hollow : Grammar :=
  (((((Grammar.new hollowSymbols).setStart 2).addRule { id := 1, lhs := 2, rhs := [3, 2] }).addRule
    { id := 2, lhs := 2, rhs := [4] }).addRule { id := 3, lhs := 3, rhs := [], prec := some 1 }
    ).setPrecedence 4 0

theorem Grammar.hollow_built : hollow.Built := by
  have hbuilt : hollowSymbols.Built :=
    Registry.built_of_nodup (by decide) (by decide) (by decide)
  refine .setPrecedence (.addRule (.addRule (.addRule (.setStart (.new hbuilt) ?_) ?_) ?_) ?_)
  · decide +kernel
  · decide +kernel
  · decide +kernel
  · decide +kernel

def hollowEngine : Engine Replay Recorder Nat :=
  ⟨Grammar.hollow.configure.2, Replay.source, Recorder.builder [] []⟩

theorem hollowEngine_configure : Grammar.hollow.configure = (.ok (), hollowEngine.grammar) := by
  have hgrammar : hollowEngine.grammar = Grammar.hollow.configure.2 := by rw [hollowEngine]
  have h : Grammar.hollow.configure.1 = .ok () := by decide +kernel
  rw [hgrammar]
  exact (Prod.eta _).symm.trans (congrArg (·, Grammar.hollow.configure.2) h)

/-- With nothing or a `B` on top of the stack and a `y` ahead. -/
def Hollow (c : Config Replay Recorder Nat) : Prop :=
  (∃ t, c.ahead = some t ∧ t.type = 121) ∧ (topState c.frames = 0 ∨ topState c.frames = 2)

theorem Hollow.step {c : Config Replay Recorder Nat} (h : Hollow c) :
    ∃ c', hollowEngine.step c = .more c' ∧ Hollow c' := by
  obtain ⟨⟨t, hahead, htype⟩, htop⟩ := h
  have ht : hollowEngine.grammar.symbols.byType? t.type = some 4 := by
    rw [htype]
    decide +kernel
  have hcells : ∀ j ∈ [0, 2], (hollowEngine.grammar.state j).shift? 4 = none ∧
      (hollowEngine.grammar.state j).reduce? 4 = some 3 ∧
      (hollowEngine.grammar.state j).shift? 3 = some 2 := by decide +kernel
  obtain ⟨hshift, hreduce, hnext⟩ := hcells (topState c.frames) (by simpa using htop)
  have hrule : hollowEngine.grammar.rules[3]? = some ⟨3, 3, [], some 1, 3⟩ := by decide +kernel
  have hstep : hollowEngine.step c = hollowEngine.reduce c t ⟨3, 3, [], some 1, 3⟩ := by
    simp only [Engine.step, hahead, act, ht, hshift, hreduce, hrule]
  have hcall : hollowEngine.call c t ⟨3, 3, [], some 1, 3⟩ =
      (.ok (some c.parser.builder.nodes), (hollowEngine.call c t ⟨3, 3, [], some 1, 3⟩).2) := rfl
  have hbelow : below c ⟨3, 3, [], some 1, 3⟩ = c.frames := rfl
  rw [reduce_eq (Nat.zero_le _), hcall, answered, hbelow] at hstep
  simp only [push, hnext] at hstep
  exact ⟨_, hstep, ⟨t, rfl, htype⟩, Or.inr rfl⟩

theorem Hollow.run {c : Config Replay Recorder Nat} (h : Hollow c) (fuel : Nat) :
    hollowEngine.run fuel c = none := by
  induction fuel generalizing c with
  | zero => rfl
  | succ fuel ih =>
    obtain ⟨c', hstep, h'⟩ := h.step
    simp only [Engine.run, hstep, ih h']

theorem hollow_never_halts : Grammar.hollow.Built ∧
    Grammar.hollow.configure = (.ok (), hollowEngine.grammar) ∧
    Supplies Replay.source [.punct (.single 0) 'y'] (.ofTokens [.punct (.single 0) 'y']) ∧
    ∀ fuel, hollowEngine.parse fuel (chainParser [.punct (.single 0) 'y']) "" = none := by
  refine ⟨Grammar.hollow_built, hollowEngine_configure, .token rfl (.spent (spent_replay 1)), ?_⟩
  intro fuel
  rw [parse, if_pos (Grammar.isConfigured_of_ok Grammar.hollow_built hollowEngine_configure)]
  cases fuel with
  | zero => rfl
  | succ fuel =>
    have hsource : hollowEngine.source = Replay.source := by rw [hollowEngine]
    have hnext : hollowEngine.source.next ⟨[.ok (.punct (.single 0) 'y')], 1⟩ =
        (.ok (.punct (.single 0) 'y'), ⟨[], 1⟩) := by
      rw [hsource]
      rfl
    have hstart : hollowEngine.start (chainParser [.punct (.single 0) 'y']) "" =
        ⟨[], none, ⟨⟨[.ok (.punct (.single 0) 'y')], 1⟩, {}, {}⟩⟩ := by
      simp only [Engine.start, hsource]
      rfl
    have htrivia : (Token.punct (.single 0) 'y').isTrivia = false := by decide
    have hhollow : Hollow ⟨[], some (.punct (.single 0) 'y'), ⟨⟨[], 1⟩, {}, { tokens := 1 }⟩⟩ :=
      ⟨⟨_, rfl, rfl⟩, Or.inl rfl⟩
    simpa [Engine.run, hstart, Engine.step, fetch, hnext, htrivia] using hhollow.run fuel

end CanonicalLR

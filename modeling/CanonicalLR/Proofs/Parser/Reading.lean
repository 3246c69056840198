import CanonicalLR.Proofs.Parser.Soundness

/-! How a parser without choices reads its tokens. Before it refuses a token it has reduced nothing
on account of it, and every run over finitely many tokens ends. -/

namespace CanonicalLR

open Collection Engine

variable {σ β ν : Type} {e : Engine σ β ν} {start : SymbolId} {tokens : List Token}
  {c₀ c c' : Config σ β ν}

/-- The tokens that were shifted are read, and the token ahead, if there is one, is new, or a rule
has just been reduced before it. -/
inductive Reading (e : Engine σ β ν) (c₀ : Config σ β ν) (tokens : List Token)
    (c : Config σ β ν) : Prop where
  | idle {word : List SymbolId} : c.ahead = none → Spelling e.grammar.symbols tokens word →
      Reads e.grammar.analysis word (spelled c.frames) → Reading e c₀ tokens c
  | fresh {word : List SymbolId} {t : Token} {d : Config σ β ν} : c.ahead = some t →
      Spelling e.grammar.symbols tokens word → Reads e.grammar.analysis word (spelled c.frames) →
      Steps e c₀ tokens d → d.ahead = none → e.step d = .more c → Reading e c₀ tokens c
  | settling {word before prev : List SymbolId} {t : Token} {s : SymbolId} {rule : Rule} :
      c.ahead = some t → e.grammar.symbols.byType? t.type = some s →
      Spelling e.grammar.symbols tokens word → Reads e.grammar.analysis word before →
      Settling e.grammar.analysis s before prev →
      Reduces e.grammar.analysis s rule prev (spelled c.frames) → Reading e c₀ tokens c

theorem Reading.settled (h : Reading e c₀ tokens c) {t : Token} (hahead : c.ahead = some t)
    {s : SymbolId} (ht : e.grammar.symbols.byType? t.type = some s) :
    ∃ word before, Spelling e.grammar.symbols tokens word ∧
      Reads e.grammar.analysis word before ∧
      Settling e.grammar.analysis s before (spelled c.frames) := by
  cases h with
  | idle hnone =>
    rw [hnone] at hahead
    cases hahead
  | fresh _ hw hr => exact ⟨_, _, hw, hr, .refl⟩
  | settling hahead' ht' hw hr hs hred =>
    obtain rfl := Option.some.inj (hahead'.symm.trans hahead)
    obtain rfl := Option.some.inj (ht'.symm.trans ht)
    exact ⟨_, _, hw, hr, hs.tail ⟨_, hred⟩⟩

theorem reading_of_steps (hready : e.grammar.Ready start) (h : Steps e c₀ tokens c)
    (hframes : c₀.frames = []) (hahead : c₀.ahead = none) : Reading e c₀ tokens c := by
  induction h with
  | refl =>
    have hr : Reads e.grammar.analysis [] (spelled c₀.frames) := by
      rw [hframes]
      exact .nil
    exact .idle hahead (show Spelling _ [] [] from rfl) hr
  | @step tokens c c' hsteps hstep ih =>
    cases hready.advance (hready.stands hsteps hframes) hstep with
    | @fetched t source stats hnone hnext =>
      rw [shiftedBy_of_none hnone, List.append_nil]
      cases ih with
      | idle _ hw hr =>
        by_cases htrivia : t.isTrivia = true
        · exact .idle (by simp [htrivia]) hw hr
        · exact .fresh (t := t) (by simp [htrivia]) hw hr hsteps hnone hstep
      | fresh hsome => simp [hnone] at hsome
      | settling hsome => simp [hnone] at hsome
    | @shifted t s next stats hsome ht hcan hat =>
      obtain ⟨word, before, hw, hr, hs⟩ := ih.settled hsome ht
      have hread : Reads e.grammar.analysis (word ++ [s]) (spelled c.frames ++ [s]) :=
        .shift hr hs hcan
      have hspelling := hw.append (Spelling.singleton ht)
      rw [shiftedBy_of_some hsome rfl]
      exact .idle rfl hspelling (by rwa [spelled_cons])
    | @reduced t s rule n next builder stats hsome ht _ _ _ hreduces _ _ =>
      obtain ⟨word, before, hw, hr, hs⟩ := ih.settled hsome ht
      rw [shiftedBy_of_kept rfl, List.append_nil]
      exact .settling rfl ht hw hr hs (by rwa [spelled_cons])

theorem Reading.refused (h : Reading e c₀ tokens c) {t : Token} (hahead : c.ahead = some t)
    (hno : ∀ s, e.grammar.symbols.byType? t.type = some s →
      ¬ CanAct e.grammar.analysis (spelled c.frames) s) :
    ∃ word d, Spelling e.grammar.symbols tokens word ∧
      Reads e.grammar.analysis word (spelled c.frames) ∧
      Steps e c₀ tokens d ∧ d.ahead = none ∧ e.step d = .more c := by
  cases h with
  | idle hnone =>
    rw [hnone] at hahead
    cases hahead
  | fresh _ hw hr hsteps hnone hstep => exact ⟨_, _, hw, hr, hsteps, hnone, hstep⟩
  | @settling word before prev t' s rule hahead' ht _ _ _ hred =>
    obtain rfl := Option.some.inj (hahead'.symm.trans hahead)
    -- after a reduction before the token there is always something to be done with it
    obtain ⟨final, hfinal, hact⟩ := hred.settling
    refine absurd ?_ (hno s ht)
    rcases hfinal.eq_or_canAct with rfl | hcan
    · exact hact.imp_right fun h0 => ⟨0, h0⟩
    · exact hcan

theorem more_of_reduce (hready : e.grammar.Ready start)
    (hb : ∀ b lhs rule children span, ∃ n, (e.builder.apply b lhs rule children span).1 =
      .ok (some n)) {p : Parser σ β} {text : String} (h : Steps e (e.start p text) tokens c)
    {s : SymbolId} {i : Nat} {rule : Rule}
    (hreduce : (e.grammar.state (topState c.frames)).reduce? s = some i) (hi : i ≠ 0)
    (hrule : e.grammar.rules[i]? = some rule) (t : Token) : ∃ c', e.reduce c t rule = .more c' := by
  obtain ⟨rule', next, hrule', hle, -, hnext⟩ :=
    (reduction_of_reachable hready h (t := t) hreduce).2 hi
  obtain rfl := Option.some.inj (hrule.symm.trans hrule')
  obtain ⟨n, hn⟩ := hb c.parser.builder rule.lhs rule ((popped c rule).map (·.child))
    (spanOf (popped c rule) t)
  have hcall : e.call c t rule = (.ok (some n), (e.call c t rule).2) := Prod.ext hn rfl
  exact ⟨_, by rw [reduce_eq hle, hcall, answered, push_eq hnext]⟩

theorem error_of_done (hready : e.grammar.Ready start) (hexact : e.grammar.Exact)
    (hb : ∀ b lhs rule children span, ∃ n, (e.builder.apply b lhs rule children span).1 =
      .ok (some n)) {p : Parser σ β} {text : String} (h : Steps e (e.start p text) tokens c)
    {err : ParseError} {p' : Parser σ β} (hdone : e.step c = .done (.error err) p') :
    (c.ahead = none ∧ (e.source.next c.parser.source).1 = .error err) ∨
      ∃ t, c.ahead = some t ∧ err = e.refuse (topState c.frames) t ∧
        ∀ s, e.grammar.symbols.byType? t.type = some s →
          ¬ CanAct e.grammar.analysis (spelled c.frames) s := by
  have hstands := hready.stands h rfl
  have htop := hstands.top hready.tracks.first
  have heffect := e.step_effect c
  rw [hdone] at heffect
  generalize hp : Progress.done (Except.error err) p' = progress at heffect
  cases heffect with
  | broken hahead hnext =>
    cases hp
    exact Or.inl ⟨hahead, by rw [hnext]⟩
  | fetched => cases hp
  | shifted => cases hp
  | unknown hahead ht =>
    cases hp
    exact Or.inr ⟨_, hahead, rfl, fun s hs => by rw [ht] at hs; cases hs⟩
  | stuck hahead ht hshift hreduce =>
    cases hp
    refine Or.inr ⟨_, hahead, rfl, fun s hs hact => ?_⟩
    obtain rfl := Option.some.inj (ht.symm.trans hs)
    rcases hact with hact | ⟨i, hact⟩
    · obtain ⟨k, hk⟩ := hexact.canShift htop hact
      rw [hk] at hshift
      cases hshift
    · rw [hexact.canReduce htop hact] at hreduce
      cases hreduce
  | lost _ _ _ hreduce hrule =>
    obtain ⟨rule, hrule', -⟩ := hready.tracks.reduce htop hreduce
    have hnone : e.grammar.analysis.rules[_]? = none := hrule
    rw [hnone] at hrule'
    cases hrule'
  | @accepted t s _ _ _ hreduce =>
    obtain ⟨n, haccept⟩ := (reduction_of_reachable hready h (t := t) hreduce).1 rfl
    rw [haccept] at hp
    cases hp
  | @reduced t s i rule _ _ _ hreduce hi hrule =>
    obtain ⟨c', hmore⟩ := more_of_reduce hready hb h hreduce hi hrule t
    rw [hmore] at hp
    cases hp

/-! Finitely many tokens. -/

/-- The source yields the tokens, none of them an end token, and then an end token. -/
inductive Delivers (source : Source σ) : List Token → σ → Prop where
  | finish {t : Token} {state state' : σ} : source.next state = (.ok t, state') →
      t.isEnd = true → Delivers source [] state
  | token {t : Token} {ts : List Token} {state state' : σ} :
      source.next state = (.ok t, state') → t.isEnd = false → Delivers source ts state' →
      Delivers source (t :: ts) state

def solid (ts : List Token) : List Token := ts.filter fun t => !t.isTrivia

theorem not_isTrivia_of_isEnd {t : Token} (h : t.isEnd = true) : t.isTrivia = false := by
  have ht : t.type = TokenKind.finish.type := by simpa [Token.isEnd] using h
  rw [Token.isTrivia, ht]
  decide

theorem Grammar.Configured.not_canShift_finish {g : Grammar} (h : g.Configured start)
    (hc : ∀ rule ∈ g.clients, .finish ∉ rule.rhs) (path : List SymbolId) :
    ¬ CanShift g.analysis path .finish := by
  rintro ⟨i, d, _, -, hd⟩
  rcases h.wellFormed.rhs_cases h.valid hd with ⟨-, -, hs⟩ | ⟨rule, hrule, hmem⟩
  · have hterm := h.wellFormed.registry.isTerminal_finish
    rw [hs, h.valid.nonterminal] at hterm
    cases hterm
  · exact hc rule hrule hmem

/-- What has become of the tokens: some are shifted, one may be ahead, the rest is to come. -/
inductive Feeding (e : Engine σ β ν) (ts tokens : List Token) (c : Config σ β ν) : Prop where
  | coming {rest : List Token} : Delivers e.source rest c.parser.source →
      solid ts = tokens ++ (c.ahead.toList ++ solid rest) → Feeding e ts tokens c
  | ended {t : Token} : c.ahead = some t → t.isEnd = true → solid ts = tokens →
      Feeding e ts tokens c

theorem feeding_of_steps (hready : e.grammar.Ready start)
    (hc : ∀ rule ∈ e.grammar.clients, ¬ rule.Mentions .finish) {ts : List Token}
    (h : Steps e c₀ tokens c) (hframes : c₀.frames = []) (hahead : c₀.ahead = none)
    (hts : Delivers e.source ts c₀.parser.source) : Feeding e ts tokens c := by
  induction h with
  | refl => exact .coming hts (by simp [hahead])
  | @step tokens c c' hsteps hstep ih =>
    cases hready.advance (hready.stands hsteps hframes) hstep with
    | @fetched t source stats hnone hnext =>
      rw [shiftedBy_of_none hnone, List.append_nil]
      cases ih with
      | ended hsome => simp [hnone] at hsome
      | coming hrest hsolid =>
        rw [hnone] at hsolid
        cases hrest with
        | finish hnext' hend =>
          obtain ⟨ht, -⟩ := Prod.mk.inj (hnext.symm.trans hnext')
          obtain rfl := Except.ok.inj ht
          exact .ended (by simp [not_isTrivia_of_isEnd hend]) hend (by simpa [solid] using hsolid)
        | token hnext' _ hrest =>
          obtain ⟨ht, rfl⟩ := Prod.mk.inj (hnext.symm.trans hnext')
          obtain rfl := Except.ok.inj ht
          refine .coming hrest (hsolid.trans ?_)
          by_cases htrivia : t.isTrivia = true <;> simp [solid, htrivia]
    | @shifted t s next stats hsome ht hcan _ =>
      rw [shiftedBy_of_some hsome rfl]
      cases ih with
      | ended hsome' hend _ =>
        obtain rfl := Option.some.inj (hsome'.symm.trans hsome)
        rw [hready.wellFormed.registry.byType?_of_isEnd hend] at ht
        obtain rfl := Option.some.inj ht
        exact absurd hcan (hready.not_canShift_finish (fun rule hr => hc rule hr ∘ Or.inr) _)
      | coming hrest hsolid =>
        rw [hsome] at hsolid
        exact .coming hrest (by simpa using hsolid)
    | @reduced t s rule n next builder stats hsome _ _ _ _ _ _ _ =>
      rw [shiftedBy_of_kept rfl, List.append_nil]
      cases ih with
      | ended hsome' hend hsolid =>
        obtain rfl := Option.some.inj (hsome'.symm.trans hsome)
        exact .ended rfl hend hsolid
      | coming hrest hsolid =>
        rw [hsome] at hsolid
        exact .coming hrest hsolid

/-! Termination. -/

/-- The source comes to an end token or to an error. -/
inductive Ends (source : Source σ) : σ → Prop where
  | broken {err : ParseError} {state state' : σ} : source.next state = (.error err, state') →
      Ends source state
  | finish {t : Token} {state state' : σ} : source.next state = (.ok t, state') →
      t.isEnd = true → Ends source state
  | token {t : Token} {state state' : σ} : source.next state = (.ok t, state') →
      Ends source state' → Ends source state

theorem Delivers.ends {source : Source σ} {ts : List Token} {state : σ}
    (h : Delivers source ts state) : Ends source state := by
  induction h with
  | finish hnext hend => exact .finish hnext hend
  | token hnext _ _ ih => exact .token hnext ih

/-- There is one rule at most to reduce, and it is reduced only where nothing can be shifted. -/
structure Grammar.Sparing (g : Grammar) : Prop where
  unrivalled : Unrivalled g.analysis
  yields : ∀ {j i : Nat} {path : List SymbolId} {s : SymbolId}, At g.analysis j path →
    (g.state j).reduce? s = some i → ¬ CanShift g.analysis path s

theorem Grammar.Exact.sparing {g : Grammar} (h : g.Exact) : g.Sparing where
  unrivalled := h.determined.reduce
  yields := fun hat hreduce hshift => h.determined.shift _ _ _ hshift (h.reduce hat hreduce)

namespace Grammar.Configured

variable (hconf : e.grammar.Configured start) (hspare : e.grammar.Sparing)
include hconf hspare

theorem halts_of_ahead {t : Token} {source : σ}
    (hnext : ∀ c' : Config σ β ν, c'.ahead = none → Stands e.grammar.analysis c'.frames →
      c'.parser.source = source → (∃ s path, e.grammar.symbols.byType? t.type = some s ∧
        CanShift e.grammar.analysis path s) → e.Halts c')
    (hahead : c.ahead = some t) (hstands : Stands e.grammar.analysis c.frames)
    (hsource : c.parser.source = source) : e.Halts c := by
  cases ht : e.grammar.symbols.byType? t.type with
  | none =>
    have hstep : e.step c = .done (.error (e.refuse (topState c.frames) t)) c.parser := by
      simp only [step, hahead, act, ht]
    exact .of_done hstep
  | some s =>
    have hacc := hspare.unrivalled.acc_reduces s (spelled c.frames)
    generalize hpath : spelled c.frames = path at hacc
    induction hacc generalizing c with
    | intro path _ ih =>
      refine .of_step fun c' hstep => ?_
      have hadvance := hconf.advance hstands hstep
      have hstands' := hadvance.stands hstands
      cases hadvance with
      | fetched hnone => simp [hahead] at hnone
      | shifted hsome ht' hcan _ =>
        obtain rfl := Option.some.inj (hahead.symm.trans hsome)
        obtain rfl := Option.some.inj (ht.symm.trans ht')
        exact hnext _ rfl hstands' hsource ⟨_, _, ht, hcan⟩
      | @reduced t' s' rule n next builder stats hsome ht' _ _ _ hreduces _ _ =>
        obtain rfl := Option.some.inj (hahead.symm.trans hsome)
        obtain rfl := Option.some.inj (ht.symm.trans ht')
        obtain ⟨i, hreduce⟩ := exists_reduce_of_kept hstep hsome rfl ht
        have hno := hspare.yields (hstands.top hconf.tracks.first) hreduce
        rw [hpath] at hreduces hno
        exact ih _ ⟨hno, rule, hreduces⟩ rfl hstands' hsource (spelled_cons _ _)

theorem halts_of_ends (hc : ∀ path, ¬ CanShift e.grammar.analysis path .finish) {source : σ}
    (hends : Ends e.source source) (hahead : c.ahead = none)
    (hstands : Stands e.grammar.analysis c.frames) (hsource : c.parser.source = source) :
    e.Halts c := by
  induction hends generalizing c with
  | @broken err state state' hnext =>
    have hstep : e.step c = .done (.error err) { c.parser with source := state' } := by
      simp only [step, hahead, fetch, hsource, hnext]
    exact .of_done hstep
  | @finish t state state' hnext hend =>
    refine .of_step fun c' hstep => ?_
    obtain ⟨_, _, _, hnext', rfl⟩ := fetched_of_more hahead hstep
    rw [hsource, hnext] at hnext'
    cases hnext'
    refine hconf.halts_of_ahead hspare (t := t) (fun c' _ _ _ hshift => ?_)
      (by simp [not_isTrivia_of_isEnd hend]) hstands rfl
    obtain ⟨s, path, ht, hcan⟩ := hshift
    rw [hconf.wellFormed.registry.byType?_of_isEnd hend] at ht
    obtain rfl := Option.some.inj ht
    exact absurd hcan (hc path)
  | @token t state state' hnext _ ih =>
    refine .of_step fun c' hstep => ?_
    obtain ⟨_, _, _, hnext', rfl⟩ := fetched_of_more hahead hstep
    rw [hsource, hnext] at hnext'
    cases hnext'
    by_cases htrivia : t.isTrivia = true
    · exact ih (by simp [htrivia]) hstands rfl
    · exact hconf.halts_of_ahead hspare (t := t)
        (fun c' hnone hs hsource' _ => ih hnone hs hsource') (by simp [htrivia]) hstands rfl

end Grammar.Configured

end CanonicalLR

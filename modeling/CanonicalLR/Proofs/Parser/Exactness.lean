import CanonicalLR.Proofs.Parser.Reading

/-! Exactness of parsers that are configured without levels and associativities: such a parser ends
on every finite input, it accepts the words of the language and no others, and it builds the only
tree that such a word has. -/

namespace CanonicalLR

open Engine

/-- The words that the start symbol derives. -/
def Grammar.Language (g : Grammar) (word : List SymbolId) : Prop :=
  AllTerminal g.symbols word ∧ ∃ s, g.start = some s ∧ Derives g.rules [s] word

namespace Grammar

variable {g : Grammar} {start : SymbolId} {word : List SymbolId}

theorem reaches_start (g : Grammar) : Reaches g.analysis [] 0 0 (some .finish) :=
  .start fun _ ht => (Option.some.inj ht).symm

structure Decided (g : Grammar) (start : SymbolId) : Prop where
  ready : g.Ready start
  exact : g.Exact
  topped : g.analysis.Topped
  start : ∀ rule ∈ g.clients, ¬ rule.Mentions .start
  finish : ∀ rule ∈ g.clients, ¬ rule.Mentions .finish

theorem Decided.of_ok {g₀ : Grammar} (hg : g₀.Built) (h : g₀.configure = (.ok (), g))
    (hprec : ∀ s, g₀.precedence? s = none) (hassoc : ∀ s, g₀.assoc? s = none)
    (hc : ∀ rule ∈ g₀.clients, ¬ rule.Mentions .start ∧ ¬ rule.Mentions .finish) :
    ∃ start, g.Decided start := by
  have hrules := (configure_ok h).2.2.1
  have hclients : g.clients = g₀.clients := by rw [clients, hrules, clients]
  obtain ⟨start, hready⟩ := Ready.of_ok hg h fun rule hr hmem => (hc rule hr).1 (Or.inr hmem)
  have hstart : ∀ rule ∈ g.clients, ¬ rule.Mentions .start :=
    hclients ▸ fun rule hr => (hc rule hr).1
  refine ⟨start, hready, exact_of_ok hg h hprec hassoc, ?_, hstart, ?_⟩
  · exact hready.wellFormed.topped hready.valid hstart
  · exact hclients ▸ fun rule hr => (hc rule hr).2

theorem language_iff (hstart : g.start = some start) :
    g.Language word ↔ ∃ tree, Parses g.symbols g.rules [tree] [start] word := by
  constructor
  · rintro ⟨hw, s, hs, hd⟩
    obtain rfl := Option.some.inj (hstart.symm.trans hs)
    obtain ⟨trees, hp⟩ := hd.parses hw
    obtain ⟨tree, rfl⟩ := List.length_eq_one_iff.mp hp.length_eq
    exact ⟨tree, hp⟩
  · rintro ⟨tree, hp⟩
    exact ⟨hp.allTerminal, start, hstart, hp.derives⟩

namespace Decided

variable (h : g.Decided start)
include h

theorem canReduce_finish : CanReduce g.analysis [start] 0 .finish := by
  have htop := h.ready.wellFormed.top_eq h.ready.valid
  have hr : Reaches g.analysis ([] ++ [start]) 0 1 (some .finish) :=
    g.reaches_start.shift (by rw [h.ready.wellFormed.rhs_zero h.ready.valid]; rfl)
  exact ⟨_, htop, hr⟩

theorem moves {tree : Tree} (hp : Parses g.symbols g.rules [tree] [start] word) :
    Moves g.analysis [] (word ++ [.finish]) (Tree.movesOf [tree]) [start] [.finish] := by
  have hd : (g.analysis.rhs 0).drop 0 = [start] ++ [] := by
    rw [h.ready.wellFormed.rhs_zero h.ready.valid]
    rfl
  have hp' : Parses g.analysis.symbols g.analysis.rules [tree] [start] word := hp
  have hleads : Leads g.analysis.symbols g.analysis.rules .finish [] (some .finish) :=
    Or.inr ⟨.nil, rfl⟩
  have hmoves : Moves g.analysis [] (word ++ [.finish]) (Tree.movesOf [tree]) ([] ++ [start])
    [.finish] := hp'.moves h.topped g.reaches_start hd hleads
  exact hmoves

theorem tree_unique {tree other : Tree} (hp : Parses g.symbols g.rules [tree] [start] word)
    (hp' : Parses g.symbols g.rules [other] [start] word) : other = tree := by
  have hmoves := h.exact.determined.moves_unique (h.moves hp') (h.moves hp) h.canReduce_finish
    h.canReduce_finish
  exact List.singleton_inj.mp (hp'.eq_of_movesOf_eq hp hmoves)

theorem canAct {before stack : List SymbolId} {s : SymbolId} (hw : g.Language word)
    (hpre : before ++ [s] <+: word ++ [SymbolId.finish]) (hr : Reads g.analysis before stack) :
    CanAct g.analysis stack s := by
  obtain ⟨tree, hp⟩ := (language_iff h.ready.valid.start).mp hw
  obtain ⟨rest, hrest⟩ := hpre
  have hin : word ++ [SymbolId.finish] = before ++ s :: rest := by
    rw [← hrest, List.append_assoc]
    rfl
  obtain ⟨stack', hr', hact⟩ := (h.moves hp).reads hin (by simp) .nil fun _ _ => .refl
  obtain rfl := h.exact.determined.reads_unique hr hr'
  rcases hact with hact | ⟨rfl, hend⟩
  · exact hact
  · obtain ⟨rfl, -⟩ := List.cons.inj hend
    exact Or.inr ⟨0, h.canReduce_finish⟩

end Decided

end Grammar

variable {σ β ν : Type} {e : Engine σ β ν} {start : SymbolId}

theorem Delivers.not_isEnd {source : Source σ} {ts : List Token} {state : σ}
    (h : Delivers source ts state) : ∀ t ∈ ts, t.isEnd = false := by
  induction h with
  | finish => simp
  | token _ hend _ ih => simpa [hend] using ih

theorem Delivers.next_ok {source : Source σ} {ts : List Token} {state : σ}
    (h : Delivers source ts state) (err : ParseError) : (source.next state).1 ≠ .error err := by
  cases h with
  | finish hnext => simp [hnext]
  | token hnext => simp [hnext]

theorem Feeding.spelling {ts tokens : List Token} {c : Config σ β ν} (h : Feeding e ts tokens c)
    (hr : e.grammar.symbols.Sound) {t : Token} (hahead : c.ahead = some t)
    {before word : List SymbolId} (hbefore : Spelling e.grammar.symbols tokens before)
    (hw : Spelling e.grammar.symbols (solid ts) word) :
    ∃ s, e.grammar.symbols.byType? t.type = some s ∧
      before ++ [s] <+: word ++ [SymbolId.finish] := by
  cases h with
  | coming _ hsolid =>
    rw [hsolid, hahead] at hw
    obtain ⟨front, back, rfl, hfront, hback⟩ := hw.split
    obtain rfl := hbefore.unique hfront
    obtain ⟨one, rest, rfl, hone, -⟩ := hback.split
    have hmap : [e.grammar.symbols.byType? t.type] = one.map some := hone
    obtain ⟨s, rfl, hs⟩ := List.map_eq_singleton_iff.mp hmap.symm
    exact ⟨s, hs.symm, by simp⟩
  | ended hahead' hend hsolid =>
    obtain rfl := Option.some.inj (hahead'.symm.trans hahead)
    rw [hsolid] at hw
    obtain rfl := hbefore.unique hw
    exact ⟨.finish, hr.byType?_of_isEnd hend, List.prefix_refl _⟩

theorem solid_of_done (h : e.grammar.Decided start) {ts tokens : List Token} {p : Parser σ β}
    {text : String} (hts : Delivers e.source ts (e.source.setInput p.source text))
    {c : Config σ β ν} (hsteps : Steps e (e.start p text) tokens c) {n : ν} {p' : Parser σ β}
    (hdone : e.step c = .done (.ok n) p') : solid ts = tokens := by
  obtain ⟨t, s, hahead, ht, -, hreduce, -⟩ := accept_of_done hdone
  obtain ⟨-, rfl, -⟩ := h.ready.acceptance (h.ready.stands hsteps rfl) hreduce
  cases feeding_of_steps h.ready h.finish hsteps rfl rfl hts with
  | ended _ _ hsolid => exact hsolid
  | coming _ hsolid =>
    have hend : t.isEnd = true := by
      simpa [Token.isEnd] using h.ready.wellFormed.registry.byType?_eq_finish.mp ht
    have hmem : t ∈ solid ts := by simp [hsolid, hahead]
    rw [hts.not_isEnd t (List.mem_of_mem_filter hmem)] at hend
    cases hend

/-- A run over tokens that ends with an error refuses a token that was just taken. -/
theorem refused_of_error (h : e.grammar.Decided start)
    (hb : ∀ b lhs rule children span, ∃ n, (e.builder.apply b lhs rule children span).1 =
      .ok (some n)) {ts tokens : List Token} {p : Parser σ β} {text : String}
    (hts : Delivers e.source ts (e.source.setInput p.source text))
    {c : Config σ β ν} (hsteps : Steps e (e.start p text) tokens c) {err : ParseError}
    {p' : Parser σ β} (hdone : e.step c = .done (.error err) p') :
    ∃ t before d, c.ahead = some t ∧ err = e.refuse (topState c.frames) t ∧
      (∀ s, e.grammar.symbols.byType? t.type = some s →
        ¬ CanAct e.grammar.analysis (spelled c.frames) s) ∧
      Spelling e.grammar.symbols tokens before ∧
      Reads e.grammar.analysis before (spelled c.frames) ∧
      Steps e (e.start p text) tokens d ∧ d.ahead = none ∧ e.step d = .more c := by
  rcases error_of_done h.ready h.exact hb hsteps hdone with ⟨hnone, herr⟩ | ⟨t, hahead, herr, hno⟩
  · cases feeding_of_steps h.ready h.finish hsteps rfl rfl hts with
    | coming hrest _ => exact absurd herr (hrest.next_ok err)
    | ended hahead => simp [hnone] at hahead
  · obtain ⟨before, d, hbefore, hr, hd⟩ :=
      (reading_of_steps h.ready hsteps rfl rfl).refused hahead hno
    exact ⟨t, before, d, hahead, herr, hno, hbefore, hr, hd⟩

theorem not_language_of_error (h : e.grammar.Decided start)
    (hb : ∀ b lhs rule children span, ∃ n, (e.builder.apply b lhs rule children span).1 =
      .ok (some n)) {ts tokens : List Token} {p : Parser σ β} {text : String}
    (hts : Delivers e.source ts (e.source.setInput p.source text))
    {c : Config σ β ν} (hsteps : Steps e (e.start p text) tokens c) {err : ParseError}
    {p' : Parser σ β} (hdone : e.step c = .done (.error err) p') {word : List SymbolId}
    (hw : Spelling e.grammar.symbols (solid ts) word) : ¬ e.grammar.Language word := by
  intro hlang
  obtain ⟨t, before, d, hahead, -, hno, hbefore, hr, -⟩ := refused_of_error h hb hts hsteps hdone
  have hfeeding := feeding_of_steps h.ready h.finish hsteps rfl rfl hts
  obtain ⟨s, hs, hpre⟩ := hfeeding.spelling h.ready.wellFormed.registry hahead hbefore hw
  exact hno s hs (h.canAct hlang hpre hr)

theorem exists_parse (h : e.grammar.Decided start) (hconf : e.grammar.isConfigured = true)
    {ts : List Token} {p : Parser σ β} {text : String}
    (hts : Delivers e.source ts (e.source.setInput p.source text)) :
    ∃ fuel result q tokens c, e.parse fuel p text = some (result, q.plain) ∧
      e.recorded.parse fuel p.recorded text = some (result, q) ∧
      Steps e (e.start p text) tokens c ∧ e.step c = .done result q.plain := by
  have hhalts : e.Halts (e.start p text) :=
    h.ready.halts_of_ends h.exact.sparing (h.ready.not_canShift_finish fun rule hr =>
      h.finish rule hr ∘ Or.inr) hts.ends rfl trivial rfl
  obtain ⟨fuel, ⟨result, p'⟩, hrun⟩ := hhalts
  have hparse : e.parse fuel p text = some (result, p') := by
    rw [parse, if_pos hconf]
    exact hrun
  have hrecorded := hparse
  rw [parse_recorded, Option.map_eq_some_iff] at hrecorded
  obtain ⟨⟨result', q⟩, hq, heq⟩ := hrecorded
  obtain ⟨rfl, rfl⟩ := Prod.mk.inj heq
  obtain ⟨tokens, c, hsteps, hdone⟩ := steps_of_run hrun
  exact ⟨fuel, result', q, tokens, c, hparse, hq, hsteps, hdone⟩

theorem tree_of_delivers (h : e.grammar.Decided start) {ts : List Token} {p : Parser σ β}
    {text : String} (hts : Delivers e.source ts (e.source.setInput p.source text)) {fuel : Nat}
    {n : ν} {q : Parser σ (β × List (Call ν))}
    (hparse : e.parse fuel p text = some (.ok n, q.plain))
    (hq : e.recorded.parse fuel p.recorded text = some (.ok n, q)) :
    ∃ tree word, Parses e.grammar.symbols e.grammar.rules [tree] [start] word ∧
      Spelling e.grammar.symbols (solid ts) word ∧
      Walk e.grammar.symbols [tree] (solid ts) q.builder.2 [.node n] := by
  obtain ⟨tree, word, tokens, q', c, hp, hq', -, hsteps, hdone, hwalk⟩ :=
    tree_of_parse h.ready hparse
  obtain ⟨-, rfl⟩ := Prod.mk.inj (Option.some.inj (hq'.symm.trans hq))
  have hdone' : e.step c.plain = .done (.ok n) q'.plain := by
    rw [step_plain, hdone]
    rfl
  rw [solid_of_done h hts hsteps.plain hdone']
  exact ⟨tree, word, hp, hp.spelling hwalk, hwalk⟩

/-- Without levels and associativities a parser accepts the language of its grammar, with the one
tree of each word. -/
theorem parse_exact {g : Grammar} (hg : g.Built) (e : Engine σ β ν)
    (h : g.configure = (.ok (), e.grammar)) (hprec : ∀ s, g.precedence? s = none)
    (hassoc : ∀ s, g.assoc? s = none)
    (hc : ∀ rule ∈ g.clients, ¬ rule.Mentions .start ∧ ¬ rule.Mentions .finish)
    (hb : ∀ b lhs rule children span, ∃ n, (e.builder.apply b lhs rule children span).1 =
      .ok (some n)) (p : Parser σ β) (text : String) (ts : List Token)
    (hts : Delivers e.source ts (e.source.setInput p.source text)) :
    ∃ fuel result q, e.parse fuel p text = some (result, q.plain) ∧
      e.recorded.parse fuel p.recorded text = some (result, q) ∧
      ((∃ n, result = .ok n) ↔
        ∃ word, Spelling e.grammar.symbols (solid ts) word ∧ e.grammar.Language word) ∧
      ∀ start tree word, e.grammar.start = some start →
        Spelling e.grammar.symbols (solid ts) word →
        Parses e.grammar.symbols e.grammar.rules [tree] [start] word →
        (∃ n, result = .ok n ∧ Walk e.grammar.symbols [tree] (solid ts) q.builder.2 [.node n]) ∧
          ∀ other, Parses e.grammar.symbols e.grammar.rules [other] [start] word →
            other = tree := by
  obtain ⟨start, hdecided⟩ := Grammar.Decided.of_ok hg h hprec hassoc hc
  have hstart := hdecided.ready.valid.start
  obtain ⟨fuel, result, q, tokens, c, hparse, hq, hsteps, hdone⟩ :=
    exists_parse hdecided (Grammar.isConfigured_of_ok hg h) hts
  have hcomplete : ∀ word, Spelling e.grammar.symbols (solid ts) word →
      e.grammar.Language word → ∃ n, result = .ok n := by
    intro word hw hlang
    cases result with
    | ok n => exact ⟨n, rfl⟩
    | error err => exact absurd hlang (not_language_of_error hdecided hb hts hsteps hdone hw)
  refine ⟨fuel, result, q, hparse, hq, ⟨?_, ?_⟩, ?_⟩
  · rintro ⟨n, rfl⟩
    obtain ⟨tree, word, hp, hw, -⟩ := tree_of_delivers hdecided hts hparse hq
    exact ⟨word, hw, (Grammar.language_iff hstart).mpr ⟨tree, hp⟩⟩
  · rintro ⟨word, hw, hlang⟩
    exact hcomplete word hw hlang
  · intro start' tree word hs hw hp
    obtain rfl := Option.some.inj (hs.symm.trans hstart)
    have hunique : ∀ other, Parses e.grammar.symbols e.grammar.rules [other] [start'] word →
        other = tree := fun _ hp' => hdecided.tree_unique hp hp'
    obtain ⟨n, rfl⟩ := hcomplete word hw ((Grammar.language_iff hstart).mpr ⟨tree, hp⟩)
    obtain ⟨tree', word', hp', hw', hwalk⟩ := tree_of_delivers hdecided hts hparse hq
    obtain rfl := hw.unique hw'
    obtain rfl := hunique tree' hp'
    exact ⟨⟨n, rfl, hwalk⟩, hunique⟩

theorem chain_parses : ∃ tree,
    Parses chainEngine.grammar.symbols chainEngine.grammar.rules [tree] [2] [3] := by
  have hx : chainEngine.grammar.symbols.isTerminal 3 = true := by decide +kernel
  have hstep : (⟨1, 2, [3, 2], none, 1⟩ : Rule) ∈ chainEngine.grammar.rules := by decide +kernel
  have hstop : (⟨2, 2, [], none, 2⟩ : Rule) ∈ chainEngine.grammar.rules := by decide +kernel
  have hempty := Parses.node (r := chainEngine.grammar.symbols) hstop .nil .nil
  exact ⟨_, .node hstep (.leaf hx hempty) .nil⟩

theorem chain_parse_exact :
    ∃ (fuel : Nat) (n : Nat) (q : Parser Replay (Recorder × List (Call Nat))),
      chainEngine.parse fuel (chainParser [.punct (.single 0) 'x']) "" = some (.ok n, q.plain) ∧
        ∀ tree, Parses chainEngine.grammar.symbols chainEngine.grammar.rules [tree] [2] [3] →
          Walk chainEngine.grammar.symbols [tree] [.punct (.single 0) 'x'] q.builder.2
            [.node n] := by
  obtain ⟨fuel, result, q, hparse, -, -, htrees⟩ :=
    parse_exact Grammar.chain_built chainEngine chainEngine_configure (by decide +kernel)
      (by decide +kernel) (by decide +kernel) (fun b _ _ _ _ => ⟨b.nodes, rfl⟩)
      (chainParser [.punct (.single 0) 'x']) "" [.punct (.single 0) 'x']
      (.token rfl rfl (.finish rfl rfl))
  have hstart : chainEngine.grammar.start = some 2 := by decide +kernel
  have hw : Spelling chainEngine.grammar.symbols (solid [.punct (.single 0) 'x']) [3] := by
    have htype : chainEngine.grammar.symbols.byType? 120 = some 3 := by decide +kernel
    exact .singleton htype
  obtain ⟨tree, hp⟩ := chain_parses
  obtain ⟨⟨n, rfl, -⟩, -⟩ := htrees 2 tree [3] hstart hw hp
  refine ⟨fuel, n, q, hparse, fun tree' hp' => ?_⟩
  obtain ⟨⟨n', hn, hwalk⟩, -⟩ := htrees 2 tree' [3] hstart hw hp'
  cases hn
  exact hwalk

end CanonicalLR

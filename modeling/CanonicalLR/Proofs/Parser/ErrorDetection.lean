import CanonicalLR.Proofs.Grammar.ViablePrefixes
import CanonicalLR.Proofs.Parser.Exactness
import CanonicalLR.Proofs.Symbol.Map

/-! Errors of parsers that are configured without levels and associativities. Where every
nonterminal derives some word, such a parser refuses a token as soon as no word of the language goes
on with it, and the terminals it expects are those that some word goes on with. -/

namespace CanonicalLR

open Engine Collection

theorem State.mem_expected (state : State) (r : Registry) (s : SymbolId) :
    s ∈ state.expected r ↔ r.isTerminal s = true ∧
      ((∃ next, state.shift? s = some next) ∨ ∃ i, state.reduce? s = some i) := by
  simp only [expected, List.mem_filter, SymbolSet.mem_toList, SymbolSet.contains_ofList,
    decide_eq_true_eq, List.mem_append, SymbolMap.mem_keys, shift?, reduce?]
  exact and_comm

theorem State.expected_pairwise (state : State) (r : Registry) :
    (state.expected r).Pairwise (· < ·) :=
  (SymbolSet.toList_pairwise _).filter _

variable {a : Analysis} {path before : List SymbolId} {i d : Nat} {ahead : Option SymbolId}
  {s t : SymbolId} {trees : List Tree}

theorem ValidItem.derives (h : ValidItem a path i d ahead)
    (hp : Parses a.symbols a.rules trees path before) :
    ∃ word, AllTerminal a.symbols word ∧
      (∀ t, ahead = some t → (word ++ [SymbolId.finish]).head? = some t) ∧
      ∀ {trees' : List Tree} {more : List SymbolId},
        Parses a.symbols a.rules trees' ((a.rhs i).drop d) more →
        Derives a.rules [.start] (before ++ (more ++ word)) := by
  obtain ⟨rule, front, word, hrule, -, hder, hword, rfl, hahead⟩ := h
  refine ⟨word, hword, hahead, fun hmore => ?_⟩
  rw [Analysis.rhs_eq hrule] at hmore
  have hstep : RightRewrites a.symbols a.rules (front ++ rule.lhs :: word)
      (front ++ rule.rhs ++ word) := .apply front word (List.mem_of_getElem? hrule) hword
  have hforest := (hp.append hmore).append (Parses.leaves hword)
  rw [List.append_assoc front, List.take_append_drop, List.append_assoc before] at hforest
  have hfront : Derives a.rules [.start] (front ++ rule.rhs ++ word) :=
    RightDerives.derives (hder.tail hstep)
  exact hfront.trans hforest.derives

theorem Analysis.Productive.drop (h : a.Productive) (i d : Nat) :
    CanonicalLR.Productive a.symbols a.rules ((a.rhs i).drop d) := by
  intro s hs
  obtain ⟨rule, hi, hmem⟩ := Analysis.exists_rule_of_mem (List.mem_of_mem_drop hs)
  exact h rule (List.mem_of_getElem? hi) s hmem

/-- What the items allow before a terminal leads to a word that goes on with it. -/
theorem CanAct.derives (hprod : a.Productive) (htop : a.Single) (h : CanAct a path t)
    (ht : a.symbols.isTerminal t = true) (hp : Parses a.symbols a.rules trees path before) :
    ∃ word, AllTerminal a.symbols word ∧ Derives a.rules [.start] word ∧
      before ++ [t] <+: word ++ [SymbolId.finish] := by
  rcases h with ⟨i, d, ahead, hr, hd⟩ | ⟨i, rule, hrule, hr⟩
  · obtain ⟨word, hword, -, hderives⟩ := (hr.validItem hprod htop).derives hp
    obtain ⟨rest, more, hmore⟩ := (hprod.drop i (d + 1)).parses
    have hdrop : (a.rhs i).drop d = t :: (a.rhs i).drop (d + 1) := by
      rw [← (List.getElem?_eq_some_iff.mp hd).2, List.cons_getElem_drop_succ]
    have hparses : Parses a.symbols a.rules (.leaf t :: rest) ((a.rhs i).drop d) (t :: more) := by
      rw [hdrop]
      exact .leaf ht hmore
    refine ⟨_, ?_, hderives hparses, ?_⟩
    · exact hp.allTerminal.append (hparses.allTerminal.append hword)
    · simp
  · obtain ⟨word, hword, hahead, hderives⟩ := (hr.validItem hprod htop).derives hp
    have hdrop : (a.rhs i).drop rule.rhs.length = [] := by
      rw [Analysis.rhs_eq hrule, List.drop_length]
    have hparses : Parses a.symbols a.rules [] ((a.rhs i).drop rule.rhs.length) [] := by
      rw [hdrop]
      exact .nil
    refine ⟨_, hp.allTerminal.append hword, hderives hparses, ?_⟩
    obtain ⟨rest, hrest⟩ := List.head?_eq_some_iff.mp (hahead t rfl)
    rw [List.append_assoc, hrest]
    simp

theorem Reads.derives (hprod : a.Productive) (htop : a.Single) (h : Reads a before path)
    (hb : AllTerminal a.symbols before) :
    ∃ word, AllTerminal a.symbols word ∧ Derives a.rules [.start] word ∧ before <+: word := by
  obtain ⟨trees, hp⟩ := h.parses hb
  obtain ⟨i, d, ahead, hr⟩ := h.reaches
  obtain ⟨word, hword, -, hderives⟩ := (hr.validItem hprod htop).derives hp
  obtain ⟨rest, more, hmore⟩ := (hprod.drop i d).parses
  refine ⟨_, ?_, hderives hmore, List.prefix_append before _⟩
  exact hp.allTerminal.append (hmore.allTerminal.append hword)

namespace Grammar

variable {g : Grammar} {start : SymbolId} {stack word : List SymbolId}

theorem WellFormed.language_of_derives (h : g.WellFormed) (hv : g.Valid start)
    (hc : ∀ rule ∈ g.clients, ¬ rule.Mentions .start) (hw : AllTerminal g.symbols word)
    (hd : Derives g.rules [.start] word) : g.Language word := by
  obtain ⟨trees, hp⟩ := hd.parses hw
  generalize hroots : [SymbolId.start] = roots at hp
  cases hp with
  | nil => cases hroots
  | leaf ht _ =>
    obtain ⟨rfl, -⟩ := List.cons.inj hroots
    rw [h.registry.isTerminal_start] at ht
    cases ht
  | node hr hbelow hrest =>
    obtain ⟨hlhs, rfl⟩ := List.cons.inj hroots
    cases hrest
    rw [List.append_nil] at hw ⊢
    rw [h.rules_eq hv] at hr
    rcases List.mem_cons.mp hr with rfl | hr
    · exact ⟨hw, start, hv.start, hbelow.derives⟩
    · exact absurd (Or.inl hlhs) (hc _ hr)

namespace Decided

variable (h : g.Decided start) (hp : g.Productive)
include h hp

theorem exists_word (hr : Reads g.analysis before stack) (hb : AllTerminal g.symbols before) :
    ∃ word, g.Language word ∧ before <+: word := by
  have hsingle := h.ready.wellFormed.single h.ready.valid h.start
  obtain ⟨word, hw, hd, hpre⟩ := hr.derives hp.analysis hsingle hb
  exact ⟨word, h.ready.wellFormed.language_of_derives h.ready.valid h.start hw hd, hpre⟩

theorem canAct_iff (hr : Reads g.analysis before stack) (hb : AllTerminal g.symbols before)
    (ht : g.symbols.isTerminal t = true) : CanAct g.analysis stack t ↔
      ∃ word, g.Language word ∧ before ++ [t] <+: word ++ [SymbolId.finish] := by
  constructor
  · intro hact
    obtain ⟨trees, hforest⟩ := hr.parses hb
    have hsingle := h.ready.wellFormed.single h.ready.valid h.start
    obtain ⟨word, hw, hd, hpre⟩ := hact.derives hp.analysis hsingle ht hforest
    exact ⟨word, h.ready.wellFormed.language_of_derives h.ready.valid h.start hw hd, hpre⟩
  · rintro ⟨word, hlang, hpre⟩
    exact h.canAct hlang hpre hr

theorem mem_expected_iff {j : Nat} (hj : At g.analysis j stack) (hr : Reads g.analysis before stack)
    (hb : AllTerminal g.symbols before) (t : SymbolId) :
    t ∈ (g.state j).expected g.symbols ↔
      ∃ word, g.Language word ∧ before ++ [t] <+: word ++ [SymbolId.finish] := by
  rw [State.mem_expected]
  constructor
  · rintro ⟨ht, ⟨next, hshift⟩ | ⟨i, hreduce⟩⟩
    · exact (h.canAct_iff hp hr hb ht).mp (Or.inl (h.ready.tracks.shift hj hshift).2)
    · exact (h.canAct_iff hp hr hb ht).mp (Or.inr ⟨i, h.ready.tracks.reduce hj hreduce⟩)
  · rintro ⟨word, hlang, hpre⟩
    have ht : g.symbols.isTerminal t = true := by
      have hmem : t ∈ word ++ [SymbolId.finish] := hpre.subset (by simp)
      rcases List.mem_append.mp hmem with hmem | hmem
      · exact hlang.1 t hmem
      · rw [List.mem_singleton.mp hmem]
        exact h.ready.wellFormed.registry.isTerminal_finish
    refine ⟨ht, ?_⟩
    rcases (h.canAct_iff hp hr hb ht).mpr ⟨word, hlang, hpre⟩ with hshift | ⟨i, hreduce⟩
    · exact Or.inl (h.exact.canShift hj hshift)
    · exact Or.inr ⟨i, h.exact.canReduce hj hreduce⟩

end Decided

end Grammar

variable {σ β ν : Type}

/-- The first token that no word goes on with is refused before anything is reduced on account of
it, and what is expected in its place is what some word goes on with. -/
theorem refuse_exact {g : Grammar} (hg : g.Built) (e : Engine σ β ν)
    (h : g.configure = (.ok (), e.grammar)) (hprec : ∀ s, g.precedence? s = none)
    (hassoc : ∀ s, g.assoc? s = none)
    (hc : ∀ rule ∈ g.clients, ¬ rule.Mentions .start ∧ ¬ rule.Mentions .finish)
    (hp : g.Productive)
    (hb : ∀ b lhs rule children span, ∃ n, (e.builder.apply b lhs rule children span).1 =
      .ok (some n)) (p : Parser σ β) (text : String) (ts : List Token)
    (hts : Delivers e.source ts (e.source.setInput p.source text)) {fuel : Nat} {err : ParseError}
    {p' : Parser σ β} (hparse : e.parse fuel p text = some (.error err, p')) :
    ∃ tokens before t c d,
      (Steps e (e.start p text) tokens d ∧ d.ahead = none ∧ e.step d = .more c ∧
        c.ahead = some t ∧ e.step c = .done (.error err) p' ∧
        err = e.refuse (topState c.frames) t) ∧
      (tokens ++ [t] <+: solid ts ∨ (tokens = solid ts ∧ t.isEnd = true)) ∧
      Spelling e.grammar.symbols tokens before ∧
      (∃ word, e.grammar.Language word ∧ before <+: word) ∧
      (∀ s, e.grammar.symbols.byType? t.type = some s → ∀ word, e.grammar.Language word →
        ¬ before ++ [s] <+: word ++ [SymbolId.finish]) ∧
      ((e.grammar.state (topState c.frames)).expected e.grammar.symbols).Pairwise (· < ·) ∧
      ∀ s, s ∈ (e.grammar.state (topState c.frames)).expected e.grammar.symbols ↔
        ∃ word, e.grammar.Language word ∧ before ++ [s] <+: word ++ [SymbolId.finish] := by
  obtain ⟨start, hdecided⟩ := Grammar.Decided.of_ok hg h hprec hassoc hc
  obtain ⟨-, hsymbols, hrules, -⟩ := Grammar.configure_ok h
  have hp' : e.grammar.Productive := hp.of_eq hsymbols hrules
  have hrun : e.run fuel (e.start p text) = some (.error err, p') := by
    rwa [parse, if_pos (Grammar.isConfigured_of_ok hg h)] at hparse
  obtain ⟨tokens, c, hsteps, hdone⟩ := steps_of_run hrun
  obtain ⟨t, before, d, hahead, herr, hno, hbefore, hr, hsteps', hnone, hstep⟩ :=
    refused_of_error hdecided hb hts hsteps hdone
  have hat := (hdecided.ready.stands hsteps rfl).top hdecided.ready.tracks.first
  have hterminal := hbefore.allTerminal
  refine ⟨tokens, before, t, c, d, ⟨hsteps', hnone, hstep, hahead, hdone, herr⟩, ?_, hbefore,
    hdecided.exists_word hp' hr hterminal, ?_, State.expected_pairwise _ _,
    hdecided.mem_expected_iff hp' hat hr hterminal⟩
  · cases feeding_of_steps hdecided.ready hdecided.finish hsteps rfl rfl hts with
    | coming _ hsolid => exact Or.inl (by simp [hsolid, hahead])
    | ended hahead' hend hsolid =>
      obtain rfl := Option.some.inj (hahead'.symm.trans hahead)
      exact Or.inr ⟨hsolid.symm, hend⟩
  · intro s hs word hlang hpre
    exact hno s hs (hdecided.canAct hlang hpre hr)

theorem chain_refuse_exact : ∃ err p' state before t,
    chainEngine.parse 9 (chainParser [.punct (.single 0) 'x', .punct (.single 1) 'y']) "" =
      some (.error err, p') ∧ err = chainEngine.refuse state t ∧
      ∀ s, s ∈ (chainEngine.grammar.state state).expected chainEngine.grammar.symbols ↔
        ∃ word, chainEngine.grammar.Language word ∧ before ++ [s] <+: word ++ [SymbolId.finish] := by
  have hresult : (chainEngine.parse 9
      (chainParser [.punct (.single 0) 'x', .punct (.single 1) 'y']) "").map (·.1.toOption) =
        some none := by decide +kernel
  obtain ⟨⟨result, p'⟩, hparse, hnone⟩ := Option.map_eq_some_iff.mp hresult
  obtain ⟨err, rfl⟩ := toOption_eq_none_iff.mp hnone
  obtain ⟨tokens, before, t, c, d, hrefused, -, -, -, -, -, hexpected⟩ :=
    refuse_exact Grammar.chain_built chainEngine chainEngine_configure (by decide +kernel)
      (by decide +kernel) (by decide +kernel) Grammar.chain_productive
      (fun b _ _ _ _ => ⟨b.nodes, rfl⟩)
      (chainParser [.punct (.single 0) 'x', .punct (.single 1) 'y']) ""
      [.punct (.single 0) 'x', .punct (.single 1) 'y'] (.token rfl rfl (.token rfl rfl
        (.finish rfl rfl))) hparse
  exact ⟨err, p', _, before, t, hparse, hrefused.2.2.2.2.2, hexpected⟩

end CanonicalLR

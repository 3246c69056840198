import CanonicalLR.Proofs.Grammar.Configured
import CanonicalLR.Proofs.Parser.Steps

/-! The stack of a parser for a configured grammar. Each of its states is one for the symbols up to
it, and so what a reduction takes off the stack is the right-hand side of its rule. -/

namespace CanonicalLR

open Collection

variable {σ β ν : Type}

def spelled (frames : List (Frame ν)) : List SymbolId := (frames.map (·.symbol)).reverse

@[simp] theorem spelled_cons (f : Frame ν) (frames : List (Frame ν)) :
    spelled (f :: frames) = spelled frames ++ [f.symbol] := by
  simp [spelled]

theorem spelled_eq_append (frames : List (Frame ν)) (size : Nat) :
    spelled frames =
      spelled (frames.drop size) ++ (frames.take size).reverse.map (·.symbol) := by
  conv_lhs => rw [← List.take_append_drop size frames]
  simp [spelled]

/-- Every state on the stack is one for the symbols up to it. -/
def Stands (a : Analysis) : List (Frame ν) → Prop
  | [] => True
  | f :: below => At a f.state (spelled below ++ [f.symbol]) ∧ Stands a below

theorem Stands.drop {a : Analysis} {frames : List (Frame ν)} (h : Stands a frames) (size : Nat) :
    Stands a (frames.drop size) := by
  induction frames generalizing size with
  | nil =>
    rw [List.drop_nil]
    trivial
  | cons f below ih =>
    cases size with
    | zero => exact h
    | succ size => exact ih h.2 size

theorem Stands.top {a : Analysis} (hfirst : At a 0 []) {frames : List (Frame ν)}
    (h : Stands a frames) : At a (topState frames) (spelled frames) := by
  cases frames with
  | nil => exact hfirst
  | cons f below =>
    rw [spelled_cons]
    exact h.1

structure Grammar.Configured (g : Grammar) (s : SymbolId) : Prop where
  wellFormed : g.WellFormed
  valid : g.Valid s
  tracks : g.Tracks

structure Grammar.Ready (g : Grammar) (s : SymbolId) : Prop extends g.Configured s where
  clients : ∀ rule ∈ g.clients, .start ∉ rule.rhs

namespace Grammar

variable {g : Grammar} {start s : SymbolId} {frames : List (Frame ν)} {i : Nat}

theorem Configured.of_ok {g₀ : Grammar} (hg : g₀.Built) (h : g₀.configure = (.ok (), g)) :
    ∃ start, g.Configured start := by
  obtain ⟨⟨start, hv⟩, hsymbols, hrules, hstart, -⟩ := configure_ok h
  have hclients : g.clients = g₀.clients := by rw [Grammar.clients, hrules, Grammar.clients]
  refine ⟨start, hg.wellFormed.of_eq hsymbols hrules hstart, ⟨?_, ?_, ?_⟩, tracks_of_ok hg h⟩
  · rw [hstart]
    exact hv.start
  · rw [hsymbols]
    exact hv.nonterminal
  · rw [hclients, hsymbols]
    exact hv.lhs

theorem Ready.of_ok {g₀ : Grammar} (hg : g₀.Built) (h : g₀.configure = (.ok (), g))
    (hc : ∀ rule ∈ g₀.clients, .start ∉ rule.rhs) : ∃ start, g.Ready start := by
  obtain ⟨start, hconf⟩ := Configured.of_ok hg h
  have hclients : g.clients = g₀.clients := by
    rw [Grammar.clients, (configure_ok h).2.2.1, Grammar.clients]
  exact ⟨start, hconf, hclients ▸ hc⟩

namespace Configured

variable (h : g.Configured start)
include h

theorem faithful : g.analysis.Faithful := h.wellFormed.faithful h.valid

/-- A reduction takes the right-hand side of its rule off the stack and finds its way on. -/
theorem reduction (hs : Stands g.analysis frames)
    (hr : (g.state (topState frames)).reduce? s = some i) (hi : i ≠ 0) :
    ∃ rule next, g.rules[i]? = some rule ∧ rule.rhs.length ≤ frames.length ∧
      (frames.take rule.rhs.length).reverse.map (·.symbol) = rule.rhs ∧
      (g.state (topState (frames.drop rule.rhs.length))).shift? rule.lhs = some next ∧
      Reduces g.analysis s rule (spelled frames)
        (spelled (frames.drop rule.rhs.length) ++ [rule.lhs]) := by
  obtain ⟨rule, hrule, hreach⟩ := h.tracks.reduce (hs.top h.tracks.first) hr
  obtain ⟨before, hspelled, hbefore⟩ := hreach.pop hrule
  have hlen : frames.length = before.length + rule.rhs.length := by
    rw [← List.length_append, ← hspelled]
    simp [spelled]
  have hle : rule.rhs.length ≤ frames.length := by omega
  have hsplit := (spelled_eq_append frames rule.rhs.length).symm.trans hspelled
  obtain ⟨hdrop, htake⟩ := List.append_inj' hsplit (by simpa using hle)
  obtain ⟨next, hnext⟩ : ∃ next,
      (g.state (topState (frames.drop rule.rhs.length))).shift? rule.lhs = some next := by
    have hat := (hs.drop rule.rhs.length).top h.tracks.first
    rw [hdrop] at hat
    rcases hbefore.zero_cases with ⟨-, h0, -⟩ | ⟨i', d, ahead, hr', hp⟩
    · exact absurd h0 hi
    · obtain ⟨rule', hrule', hdot, -⟩ := hp
      obtain rfl := Option.some.inj (hrule.symm.trans hrule')
      exact h.tracks.goto hat ⟨i', d, ahead, hr', hdot⟩ (h.faithful.nonterminal hrule)
  refine ⟨rule, next, hrule, hle, htake, hnext, ?_⟩
  rw [hdrop, hspelled]
  exact .pop hi hrule (hspelled ▸ hreach)

end Configured

theorem Ready.acceptance (h : g.Ready start) (hs : Stands g.analysis frames)
    (hr : (g.state (topState frames)).reduce? s = some 0) :
    spelled frames = [start] ∧ s = .finish ∧ CanReduce g.analysis (spelled frames) 0 s := by
  have hreduce := h.tracks.reduce (hs.top h.tracks.first) hr
  obtain ⟨rule, hrule, hreach⟩ := id hreduce
  obtain rfl := Option.some.inj ((h.wellFormed.top_eq h.valid).symm.trans hrule)
  obtain ⟨hpath, hf⟩ := h.wellFormed.reaches_top h.valid h.clients hreach rfl
  exact ⟨hpath, hf s rfl, hreduce⟩

end Grammar

namespace Engine

inductive Advance (e : Engine σ β ν) (c : Config σ β ν) : Config σ β ν → Prop where
  | fetched {t : Token} {source : σ} {stats : ParserStats} : c.ahead = none →
      e.source.next c.parser.source = (.ok t, source) →
      Advance e c ⟨c.frames, if t.isTrivia then none else some t,
        ⟨source, c.parser.builder, stats⟩⟩
  | shifted {t : Token} {s : SymbolId} {next : Nat} {stats : ParserStats} : c.ahead = some t →
      e.grammar.symbols.byType? t.type = some s →
      CanShift e.grammar.analysis (spelled c.frames) s →
      At e.grammar.analysis next (spelled c.frames ++ [s]) →
      Advance e c ⟨⟨s, .token t, t.span, next⟩ :: c.frames, none,
        ⟨c.parser.source, c.parser.builder, stats⟩⟩
  | reduced {t : Token} {s : SymbolId} {rule : Rule} {n : ν} {next : Nat} {builder : β}
      {stats : ParserStats} : c.ahead = some t → e.grammar.symbols.byType? t.type = some s →
      rule ∈ e.grammar.rules → rule.rhs.length ≤ c.frames.length →
      (popped c rule).map (·.symbol) = rule.rhs →
      Reduces e.grammar.analysis s rule (spelled c.frames)
        (spelled (below c rule) ++ [rule.lhs]) →
      At e.grammar.analysis next (spelled (below c rule) ++ [rule.lhs]) →
      e.call c t rule = (.ok (some n), builder) →
      Advance e c ⟨⟨rule.lhs, .node n, spanOf (popped c rule) t, next⟩ :: below c rule, some t,
        ⟨c.parser.source, builder, stats⟩⟩

variable {e : Engine σ β ν} {start : SymbolId} {c₀ c c' : Config σ β ν} {tokens : List Token}

theorem Advance.stands (h : Advance e c c') (hs : Stands e.grammar.analysis c.frames) :
    Stands e.grammar.analysis c'.frames := by
  cases h with
  | fetched => exact hs
  | shifted _ _ _ hat => exact ⟨hat, hs⟩
  | reduced _ _ _ _ _ _ hat _ => exact ⟨hat, hs.drop _⟩

end Engine

open Engine

namespace Grammar.Configured

variable {e : Engine σ β ν} {start : SymbolId} {c₀ c c' : Config σ β ν} {tokens : List Token}
  (hconf : e.grammar.Configured start)
include hconf

theorem advance (hs : Stands e.grammar.analysis c.frames) (h : e.step c = .more c') :
    Advance e c c' := by
  cases follows_of_more h with
  | fetched hahead hnext => exact .fetched hahead hnext
  | shifted hahead ht hshift =>
    obtain ⟨hat, hcan⟩ := hconf.tracks.shift (hs.top hconf.tracks.first) hshift
    exact .shifted hahead ht hcan hat
  | reduced hahead ht _ hreduce hi hrule _ hcall hnext =>
    obtain ⟨rule, next, hrule', hle, hsymbols, -, hreduces⟩ := hconf.reduction hs hreduce hi
    obtain rfl := Option.some.inj (hrule.symm.trans hrule')
    have hat := (hconf.tracks.shift ((hs.drop _).top hconf.tracks.first) hnext).1
    exact .reduced hahead ht (List.mem_of_getElem? hrule) hle hsymbols hreduces hat hcall

theorem stands (h : Steps e c₀ tokens c) (h₀ : c₀.frames = []) :
    Stands e.grammar.analysis c.frames := by
  induction h with
  | refl =>
    rw [h₀]
    trivial
  | step _ hstep ih => exact (hconf.advance ih hstep).stands ih

end Grammar.Configured

end CanonicalLR

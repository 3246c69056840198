import CanonicalLR.Parser.Recorder
import CanonicalLR.Parser.Replay
import CanonicalLR.Proofs.Parser.Recorded
import CanonicalLR.Proofs.Parser.Stack
import CanonicalLR.Proofs.Results

/-! Soundness of parsers for configured grammars, however their conflicts were settled. A stack
stands for a forest over the tokens that were shifted, and the tree builder was called on a walk
over this forest. -/

namespace CanonicalLR

open Engine

variable {σ β ν : Type} {e : Engine σ β ν} {start : SymbolId} {tokens : List Token}
  {c c' : Config σ (β × List (Call ν)) ν}

/-- The stack holds the roots of a forest that has been walked over. -/
def Grown (e : Engine σ β ν) (tokens : List Token) (c : Config σ (β × List (Call ν)) ν) : Prop :=
  ∃ trees word, Parses e.grammar.symbols e.grammar.rules trees (spelled c.frames) word ∧
    Walk e.grammar.symbols trees tokens c.parser.builder.2 (c.frames.reverse.map (·.child))

theorem recorded_call {t : Token} {rule : Rule} {n : ν} {builder : β × List (Call ν)}
    (h : e.recorded.call c t rule = (.ok (some n), builder)) :
    builder.2 = c.parser.builder.2 ++ [⟨rule.lhs, rule, (popped c rule).map (·.child),
      spanOf (popped c rule) t, .ok (some n)⟩] := by
  have hcall : e.recorded.call c t rule = ((e.call c.plain t rule).1, (e.call c.plain t rule).2,
    c.parser.builder.2 ++ [⟨rule.lhs, rule, (popped c rule).map (·.child),
      spanOf (popped c rule) t, (e.call c.plain t rule).1⟩]) := rfl
  rw [hcall, Prod.mk.injEq] at h
  rw [← h.2, h.1]

theorem spelled_of_popped {rule : Rule} {c : Config σ β ν}
    (hsymbols : (popped c rule).map (·.symbol) = rule.rhs) :
    spelled c.frames = spelled (below c rule) ++ rule.rhs := by
  rw [← hsymbols]
  exact spelled_eq_append c.frames rule.rhs.length

theorem map_frames_eq {α : Type} (f : Frame ν → α) (c : Config σ β ν) (rule : Rule) :
    c.frames.reverse.map f = (below c rule).reverse.map f ++ (popped c rule).map f := by
  rw [← List.map_append, below, popped, ← List.reverse_append, List.take_append_drop]

theorem Engine.Advance.grown (h : Advance e.recorded c c') (hg : Grown e tokens c) :
    Grown e (tokens ++ shiftedBy c c') c' := by
  obtain ⟨trees, word, hparses, hwalk⟩ := hg
  cases h with
  | fetched hahead =>
    rw [shiftedBy_of_none hahead, List.append_nil]
    exact ⟨trees, word, hparses, hwalk⟩
  | @shifted t s next stats hahead ht =>
    have hleaf : Parses e.grammar.symbols e.grammar.rules [.leaf s] [s] [s] :=
      .leaf (Registry.isTerminal_of_byType? ht) .nil
    have hwalkleaf : Walk e.grammar.symbols [.leaf s] [t] [] [Child.token (ν := ν) t] :=
      .leaf ht .nil
    rw [shiftedBy_of_some hahead rfl]
    refine ⟨trees ++ [.leaf s], word ++ [s], ?_, ?_⟩
    · rw [spelled_cons]
      exact hparses.append hleaf
    · simpa using hwalk.append hwalkleaf
  | @reduced t s rule n next builder stats hahead ht hmem hle hsymbols _ _ hcall =>
    rw [spelled_of_popped hsymbols] at hparses
    rw [map_frames_eq (·.child) c rule] at hwalk
    obtain ⟨left, right, rfl, hlen, hparses'⟩ := hparses.join hmem
    have hparts : ((popped c rule).map (·.child)).length = right.length := by
      rw [hlen, ← hsymbols, List.length_map, List.length_map]
    rw [shiftedBy_of_kept rfl, List.append_nil]
    refine ⟨left ++ [.node rule right], word, ?_, ?_⟩
    · rw [spelled_cons]
      exact hparses'
    · have hwalk' := hwalk.join hparts rule (spanOf (popped c rule) t) n
      rw [← recorded_call hcall] at hwalk'
      simpa using hwalk'

theorem grown_of_steps (hready : e.grammar.Ready start) {p : Parser σ β} {text : String}
    (h : Steps e.recorded (e.recorded.start p.recorded text) tokens c) : Grown e tokens c := by
  induction h with
  | refl => exact ⟨[], [], .nil, .nil⟩
  | step hsteps hstep ih =>
    have hready' : e.recorded.grammar.Ready start := hready
    have hstands := hready'.stands hsteps rfl
    exact (hready'.advance hstands hstep).grown ih

/-! The children of a reduction. -/

/-- The tokens are those of the symbols, one after the other, and the children stand for the
symbols: a token for a terminal, and a node for another symbol, which derives its tokens. -/
inductive Covers (r : Registry) (rules : List Rule) :
    List SymbolId → List Token → List (Child ν) → Prop where
  | nil : Covers r rules [] [] []
  | token {t : Token} {s : SymbolId} {roots : List SymbolId} {tokens : List Token}
      {children : List (Child ν)} : r.byType? t.type = some s → Covers r rules roots tokens children →
      Covers r rules (s :: roots) (t :: tokens) (.token t :: children)
  | node {rule : Rule} {word roots : List SymbolId} {front tokens : List Token} {n : ν}
      {children : List (Child ν)} : rule ∈ rules → Derives rules [rule.lhs] word →
      Spelling r front word → Covers r rules roots tokens children →
      Covers r rules (rule.lhs :: roots) (front ++ tokens) (.node n :: children)

namespace Covers

variable {r : Registry} {rules : List Rule} {s : SymbolId} {roots : List SymbolId}
  {children : List (Child ν)}

theorem of_walk {trees : List Tree} {word : List SymbolId} {calls : List (Call ν)}
    (hp : Parses r rules trees roots word) (hw : Walk r trees tokens calls children) :
    Covers r rules roots tokens children := by
  induction hp generalizing tokens calls children with
  | nil =>
    cases hw
    exact .nil
  | leaf _ _ ih =>
    cases hw with
    | leaf ht hrest => exact .token ht (ih hrest)
  | node hr hbelow _ _ ih =>
    cases hw with
    | node hb hrest =>
      have hsingle := (Parses.node hr hbelow .nil).derives
      rw [List.append_nil] at hsingle
      exact .node hr hsingle (hbelow.spelling hb) (ih hrest)

theorem uncons_token (h : Covers r rules (s :: roots) tokens children)
    (hno : ∀ rule ∈ rules, rule.lhs ≠ s) : ∃ t tokens' children', tokens = t :: tokens' ∧
      children = .token t :: children' ∧ r.byType? t.type = some s ∧
      Covers r rules roots tokens' children' := by
  cases h with
  | token ht hrest => exact ⟨_, _, _, rfl, rfl, ht, hrest⟩
  | node hr => exact absurd rfl (hno _ hr)

theorem uncons_node (h : Covers r rules (s :: roots) tokens children)
    (hs : r.isTerminal s = false) : ∃ n word front tokens' children', tokens = front ++ tokens' ∧
      children = .node n :: children' ∧ Derives rules [s] word ∧ Spelling r front word ∧
      Covers r rules roots tokens' children' := by
  cases h with
  | token ht =>
    rw [Registry.isTerminal_of_byType? ht] at hs
    cases hs
  | node _ hderives hspelling hrest => exact ⟨_, _, _, _, _, rfl, rfl, hderives, hspelling, hrest⟩

end Covers

/-- What a reduction takes off the stack stands for the last tokens that were shifted. -/
theorem covers_popped {e : Engine σ β ν} {start : SymbolId} (hready : e.grammar.Ready start)
    {p : Parser σ β} {text : String} {c : Config σ β ν} (h : Steps e (e.start p text) tokens c)
    {rule : Rule} (hsymbols : (popped c rule).map (·.symbol) = rule.rhs) :
    ∃ before top, tokens = before ++ top ∧
      Covers e.grammar.symbols e.grammar.rules rule.rhs top ((popped c rule).map (·.child)) := by
  have hplain : Steps e (e.recorded.start p.recorded text).plain tokens c := h
  obtain ⟨d, hd, rfl⟩ := hplain.recorded
  obtain ⟨trees, word, hparses, hwalk⟩ := grown_of_steps hready hd
  have hsymbols : (popped d rule).map (·.symbol) = rule.rhs := hsymbols
  rw [spelled_of_popped hsymbols] at hparses
  rw [map_frames_eq (·.child) d rule] at hwalk
  obtain ⟨left, right, front, back, rfl, -, -, hright⟩ := hparses.split
  obtain ⟨before, top, _, _, children₁, children₂, rfl, -, hsplit, -, hwalkright⟩ := hwalk.split
  have hlen : ((popped d rule).map (·.child)).length = children₂.length := by
    rw [hwalkright.length_eq, hright.length_eq, ← hsymbols, List.length_map, List.length_map]
  obtain ⟨-, rfl⟩ := List.append_inj' hsplit hlen
  exact ⟨before, top, rfl, .of_walk hright hwalkright⟩

/-! Acceptance and whole runs. -/

theorem accepted_tree (hready : e.grammar.Ready start) {p : Parser σ β} {text : String}
    (h : Steps e.recorded (e.recorded.start p.recorded text) tokens c) (t : Token) {s : SymbolId}
    (hreduce : (e.grammar.state (topState c.frames)).reduce? s = some 0) :
    ∃ tree word n, e.recorded.accept c t = .done (.ok n) c.parser ∧
      Parses e.grammar.symbols e.grammar.rules [tree] [start] word ∧
      Walk e.grammar.symbols [tree] tokens c.parser.builder.2 [.node n] := by
  have hstands : Stands e.grammar.analysis c.frames :=
    (show e.recorded.grammar.Ready start from hready).stands h rfl
  obtain ⟨hspelled, -, -⟩ := hready.acceptance hstands hreduce
  obtain ⟨trees, word, hparses, hwalk⟩ := grown_of_steps hready h
  rw [hspelled] at hparses
  obtain ⟨⟨symbol, child, span, state⟩, hf⟩ : ∃ f, c.frames = [f] := by
    refine List.length_eq_one_iff.mp ?_
    have hlen := congrArg List.length hspelled
    simpa [spelled] using hlen
  obtain ⟨tree, rfl⟩ : ∃ tree, trees = [tree] := List.length_eq_one_iff.mp hparses.length_eq
  have hchild : Walk e.grammar.symbols [tree] tokens c.parser.builder.2 [child] := by
    simpa [hf] using hwalk
  obtain ⟨n, rfl⟩ := hchild.exists_node hparses hready.valid.nonterminal
  refine ⟨tree, word, n, ?_, hparses, hchild⟩
  simp only [accept, hf]

theorem reduction_of_reachable (hready : e.grammar.Ready start) {p : Parser σ β} {text : String}
    {c : Config σ β ν} (h : Steps e (e.start p text) tokens c) {t : Token} {s : SymbolId} {i : Nat}
    (hreduce : (e.grammar.state (topState c.frames)).reduce? s = some i) :
    (i = 0 → ∃ n, e.accept c t = .done (.ok n) c.parser) ∧
      (i ≠ 0 → ∃ rule next, e.grammar.rules[i]? = some rule ∧
        rule.rhs.length ≤ c.frames.length ∧ (popped c rule).map (·.symbol) = rule.rhs ∧
        (e.grammar.state (topState (below c rule))).shift? rule.lhs = some next) := by
  constructor
  · rintro rfl
    have hplain : Steps e (e.recorded.start p.recorded text).plain tokens c := h
    obtain ⟨d, hd, rfl⟩ := hplain.recorded
    obtain ⟨_, _, n, haccept, -⟩ := accepted_tree hready hd t hreduce
    exact ⟨n, by rw [accept_plain, haccept]; rfl⟩
  · intro hi
    obtain ⟨rule, next, hrule, hle, hsymbols, hnext, -⟩ :=
      hready.reduction (hready.stands h rfl) hreduce hi
    exact ⟨rule, next, hrule, hle, hsymbols, hnext⟩

theorem tree_of_parse (hready : e.grammar.Ready start) {fuel : Nat} {p : Parser σ β}
    {text : String} {n : ν} {p' : Parser σ β} (h : e.parse fuel p text = some (.ok n, p')) :
    ∃ tree word tokens q c, Parses e.grammar.symbols e.grammar.rules [tree] [start] word ∧
      e.recorded.parse fuel p.recorded text = some (.ok n, q) ∧ q.plain = p' ∧
      Steps e.recorded (e.recorded.start p.recorded text) tokens c ∧
      e.recorded.step c = .done (.ok n) q ∧
      Walk e.grammar.symbols [tree] tokens q.builder.2 [.node n] := by
  rw [parse_recorded, Option.map_eq_some_iff] at h
  obtain ⟨⟨r, q⟩, hparse, hq⟩ := h
  rw [Prod.mk.injEq] at hq
  obtain ⟨rfl, rfl⟩ := hq
  have hrun := hparse
  unfold parse at hrun
  split at hrun
  · obtain ⟨tokens, c, hsteps, hdone⟩ := steps_of_run hrun
    obtain ⟨t, s, -, -, -, hreduce, haccept⟩ := accept_of_done hdone
    obtain ⟨tree, word, n', haccept', hparses, hwalk⟩ := accepted_tree hready hsteps t hreduce
    rw [haccept'] at haccept
    cases haccept
    exact ⟨tree, word, tokens, c.parser, c, hparses, hparse, rfl, hsteps, hdone, hwalk⟩
  · cases hrun

/-- Parsers for configured grammars are sound, with any levels and associativities, any source of
tokens and any builder. -/
theorem parse_sound {g : Grammar} (hg : g.Built) (e : Engine σ β ν)
    (h : g.configure = (.ok (), e.grammar)) (hc : ∀ rule ∈ g.clients, .start ∉ rule.rhs)
    (p : Parser σ β) (text : String) :
    (∀ tokens c t s i, Steps e (e.start p text) tokens c → c.ahead = some t →
      e.grammar.symbols.byType? t.type = some s →
      (e.grammar.state (topState c.frames)).shift? s = none →
      (e.grammar.state (topState c.frames)).reduce? s = some i →
      (i = 0 → ∃ n, e.step c = .done (.ok n) c.parser) ∧
        (i ≠ 0 → ∃ rule next, e.grammar.rules[i]? = some rule ∧ e.step c = e.reduce c t rule ∧
          rule.rhs.length ≤ c.frames.length ∧
          (c.frames.take rule.rhs.length).reverse.map (·.symbol) = rule.rhs ∧
          (e.grammar.state (topState (c.frames.drop rule.rhs.length))).shift? rule.lhs =
            some next)) ∧
    ∀ fuel n p', e.parse fuel p text = some (.ok n, p') →
      ∃ start tree word tokens c q, e.grammar.start = some start ∧
        Parses e.grammar.symbols e.grammar.rules [tree] [start] word ∧
        Steps e (e.start p text) tokens c ∧ e.step c = .done (.ok n) p' ∧
        e.recorded.parse fuel p.recorded text = some (.ok n, q) ∧ q.plain = p' ∧
        Walk e.grammar.symbols [tree] tokens q.builder.2 [.node n] := by
  obtain ⟨start, hready⟩ := Grammar.Ready.of_ok hg h hc
  refine ⟨fun tokens c t s i hsteps hahead ht hshift hreduce => ?_, fun fuel n p' hparse => ?_⟩
  · obtain ⟨haccept, hpop⟩ := reduction_of_reachable hready hsteps (t := t) hreduce
    have hstep : e.step c = e.act c t := by simp only [step, hahead]
    refine ⟨fun hi => ?_, fun hi => ?_⟩
    · subst hi
      rw [hstep]
      simpa only [act, ht, hshift, hreduce] using haccept rfl
    · obtain ⟨rule, next, hrule, hle, hsymbols, hnext⟩ := hpop hi
      refine ⟨rule, next, hrule, ?_, hle, hsymbols, hnext⟩
      cases i with
      | zero => exact absurd rfl hi
      | succ i => simp only [hstep, act, ht, hshift, hreduce, hrule]
  · obtain ⟨tree, word, tokens, q, c, hparses, hq, hplain, hsteps, hdone, hwalk⟩ :=
      tree_of_parse hready hparse
    refine ⟨start, tree, word, tokens, c.plain, q, hready.valid.start, hparses, hsteps.plain, ?_,
      hq, hplain, hwalk⟩
    rw [step_plain, hdone, ← hplain]
    rfl

/-! A parser for the grammar `S → x S` and `S →`, with a builder that numbers its nodes. -/

def chainEngine : Engine Replay Recorder Nat :=
  ⟨Grammar.chain.configure.2, Replay.source, Recorder.builder [] []⟩

def chainParser (tokens : List Token) : Parser Replay Recorder := ⟨.ofTokens tokens, {}, {}⟩

theorem chainEngine_grammar : chainEngine.grammar = Grammar.chain.configure.2 := by
  rw [chainEngine]

theorem chainEngine_configure : Grammar.chain.configure = (.ok (), chainEngine.grammar) := by
  rw [chainEngine_grammar]
  exact Grammar.chain_configure

theorem chain_parse_x : ∃ p',
    chainEngine.parse 9 (chainParser [.punct (.single 0) 'x']) "" = some (.ok 1, p') := by
  have hresult : (chainEngine.parse 9 (chainParser [.punct (.single 0) 'x']) "").map
      (·.1.toOption) = some (some 1) := by decide +kernel
  obtain ⟨⟨result, p'⟩, hparse, hok⟩ := Option.map_eq_some_iff.mp hresult
  obtain rfl := toOption_eq_some_iff.mp hok
  exact ⟨p', hparse⟩

theorem chain_parse_sound : ∃ tree word tokens q,
    Parses Grammar.chain.symbols Grammar.chain.rules [tree] [2] word ∧
      chainEngine.recorded.parse 9 (chainParser [.punct (.single 0) 'x']).recorded "" =
        some (.ok 1, q) ∧
      Walk Grammar.chain.symbols [tree] tokens q.builder.2 [.node 1] := by
  obtain ⟨p', hparse⟩ := chain_parse_x
  obtain ⟨start, tree, word, tokens, -, q, hstart, hparses, -, -, hq, -, hwalk⟩ :=
    (parse_sound Grammar.chain_built chainEngine chainEngine_configure (by decide +kernel)
      (chainParser [.punct (.single 0) 'x']) "").2 9 1 p' hparse
  have hs : chainEngine.grammar.start = some 2 := by decide +kernel
  obtain rfl := Option.some.inj (hstart.symm.trans hs)
  obtain ⟨hsymbols, hrules, -⟩ := Grammar.chain.configure_keeps
  rw [chainEngine_grammar, hsymbols] at hwalk
  rw [chainEngine_grammar, hsymbols, hrules] at hparses
  exact ⟨tree, word, tokens, q, hparses, hq, hwalk⟩

end CanonicalLR

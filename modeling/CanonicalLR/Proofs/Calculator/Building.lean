import CanonicalLR.Proofs.Calculator.Parsing
import CanonicalLR.Proofs.Parser.Indexing

/-! What the builder of the calculator is given. The children of a reduction stand for the symbols
of its rule, and tokens hold what their types say, so all that the builder can complain about is the
name in a call. -/

namespace CanonicalLR.Calculator

open Vocabulary Grammar Engine

variable {p : Int} {g : Grammar} {name : String} {cs : Children} {span : Span} {f : Form}

/-- The tokens are those of a call of `name`. -/
inductive Calling (rules : List Rule) (name : String) : List Token → Prop where
  | intro (t : Of .ident) (t₁ : Of .lparen) {inner : List Token} {word : List SymbolId}
      (t₂ : Of .rparen) : t.1.payload = .ident name → Derives rules [expr] word →
      Spelling registry inner word → Calling rules name (t.1 :: t₁.1 :: (inner ++ [t₂.1]))

theorem mark_of_symbol {t : Token} {m : Mark} (h : registry.byType? t.type = some m.symbol) :
    mark? t = some m := by
  have hend : t.isEnd = false := by
    cases hend : t.isEnd with
    | false => rfl
    | true =>
      have hfinish := (registry_built.sound.byType?_of_isEnd hend).symm.trans h
      refine absurd (Option.some.inj hfinish) ?_
      cases m with
      | op o => cases o <;> decide
      | _ => decide
  obtain ⟨m', hm, hs⟩ := mark_of_byType? h hend
  rw [hm, Mark.symbol_injective hs]

theorem type_of_symbol {t : Token} {m : Mark} (h : registry.byType? t.type = some m.symbol) :
    t.type = m.type := by
  have htype : m.type = t.type := by simpa using List.find?_some (mark_of_symbol h)
  exact htype.symm

theorem takeIdent_token {t : Token} (h : t.payload = .ident name) (span : Span) (cs : Children) :
    takeIdent span (.token t :: cs) = .ok (name, cs) := by
  obtain ⟨_, _, payload⟩ := t
  obtain rfl : payload = .ident name := h
  rfl

namespace Ruled

variable (h : Ruled p g) {roots : List SymbolId} {tokens : List Token}
include h

theorem uncons_mark {m : Mark} (hcovers : Covers registry g.rules (m.symbol :: roots) tokens cs) :
    ∃ (t : Of m) (tokens' : List Token) (cs' : Children), tokens = t.1 :: tokens' ∧
      cs = .token t.1 :: cs' ∧ t.1.type = m.type ∧ Covers registry g.rules roots tokens' cs' := by
  obtain ⟨t, tokens', cs', rfl, rfl, ht, hrest⟩ := hcovers.uncons_token fun rule hr hlhs => by
    have hterminal := h.isTerminal_lhs hr
    rw [hlhs, isTerminal_symbol] at hterminal
    cases hterminal
  exact ⟨⟨t, mark_of_symbol ht⟩, tokens', cs', rfl, rfl, type_of_symbol ht, hrest⟩

theorem buildBinary_ok (o : Operator) {m : Mark}
    (hcovers : Covers registry g.rules [expr, m.symbol, expr] tokens cs) :
    ∃ e, buildBinary o span cs = .ok e := by
  obtain ⟨lhs, _, _, _, _, rfl, rfl, -, -, hcovers⟩ := hcovers.uncons_node (by decide)
  obtain ⟨t, _, _, rfl, rfl, -, hcovers⟩ := h.uncons_mark hcovers
  obtain ⟨rhs, _, _, _, _, rfl, rfl, -, -, -⟩ := hcovers.uncons_node (by decide)
  exact ⟨_, rfl⟩

theorem buildEnclosed_ok (m m' : Mark) {s : SymbolId} (hs : registry.isTerminal s = false)
    (hcovers : Covers registry g.rules [m.symbol, s, m'.symbol] tokens cs) :
    ∃ e, buildEnclosed span cs = .ok e := by
  obtain ⟨t, _, _, rfl, rfl, -, hcovers⟩ := h.uncons_mark hcovers
  obtain ⟨inner, _, _, _, _, rfl, rfl, -, -, -⟩ := hcovers.uncons_node hs
  exact ⟨_, rfl⟩

theorem uncons_ident (hcovers : Covers registry g.rules (ident :: roots) tokens cs)
    (htyped : ∀ t ∈ tokens, t.Typed) : ∃ (t : Of .ident) (name : String) (tokens' : List Token)
      (cs' : Children), tokens = t.1 :: tokens' ∧ cs = .token t.1 :: cs' ∧
      t.1.payload = .ident name ∧ Covers registry g.rules roots tokens' cs' ∧
      ∀ t ∈ tokens', t.Typed := by
  obtain ⟨t, tokens', cs', rfl, rfl, ht, hrest⟩ := h.uncons_mark (m := .ident) hcovers
  obtain ⟨hfirst, htyped⟩ := List.forall_mem_cons.mp htyped
  obtain ⟨name, hname⟩ := hfirst.ident ht
  exact ⟨t, name, tokens', cs', rfl, rfl, hname, hrest, htyped⟩

theorem takeKey_ok {m : Mark} (span : Span)
    (hcovers : Covers registry g.rules (ident :: m.symbol :: ident :: roots) tokens cs)
    (htyped : ∀ t ∈ tokens, t.Typed) : ∃ key tokens' cs',
      takeKey span cs = .ok (key, cs') ∧ Covers registry g.rules roots tokens' cs' := by
  obtain ⟨_, name, _, _, rfl, rfl, hname, hcovers, htyped⟩ := h.uncons_ident hcovers htyped
  obtain ⟨_, _, _, rfl, rfl, -, hcovers⟩ := h.uncons_mark hcovers
  obtain ⟨-, htyped⟩ := List.forall_mem_cons.mp htyped
  obtain ⟨_, spec, tokens', cs', rfl, rfl, hspec, hcovers, -⟩ := h.uncons_ident hcovers htyped
  refine ⟨⟨name, some spec⟩, tokens', cs', ?_, hcovers⟩
  rw [takeKey, takeIdent_token hname]
  show (takeIdent span (.token _ :: cs') >>= fun _ => _) = _
  rw [takeIdent_token hspec]
  rfl

theorem buildCall_cases (hcovers : Covers registry g.rules [ident, lparen, expr, rparen] tokens cs)
    (htyped : ∀ t ∈ tokens, t.Typed) : (∃ e, buildCall span cs = .ok e) ∨
      ∃ name, Calling g.rules name tokens ∧ Function.ofName? name = none ∧
        buildCall span cs = .error (.semantic span s!"unknown function {name}") := by
  obtain ⟨t, name, _, _, rfl, rfl, hname, hcovers, -⟩ := h.uncons_ident hcovers htyped
  obtain ⟨t₁, _, _, rfl, rfl, -, hcovers⟩ := h.uncons_mark (m := .lparen) hcovers
  obtain ⟨arg, word, inner, _, _, rfl, rfl, hderives, hspelling, hcovers⟩ :=
    hcovers.uncons_node (by decide)
  obtain ⟨t₂, _, _, rfl, rfl, -, hcovers⟩ := h.uncons_mark (m := .rparen) hcovers
  cases hcovers
  cases hf : Function.ofName? name with
  | some f =>
    refine Or.inl ⟨.call f arg span, ?_⟩
    simp only [buildCall, takeIdent_token hname, bind, Except.bind, hf]
    rfl
  | none =>
    refine Or.inr ⟨name, .intro t t₁ t₂ hname hderives hspelling, hf, ?_⟩
    simp only [buildCall, takeIdent_token hname, bind, Except.bind, hf]

/-- Given what stands for its rule, the builder builds a node, or the rule is that of a call and the
name in it is none of a function. -/
theorem build_cases (hcovers : Covers registry g.rules f.sides.2 tokens cs)
    (htyped : ∀ t ∈ tokens, t.Typed) (span : Span) : (∃ e, build span cs f = .ok e) ∨
      ∃ name, Calling g.rules name tokens ∧ Function.ofName? name = none ∧
        build span cs f = .error (.semantic span s!"unknown function {name}") := by
  cases f with
  | call => exact h.buildCall_cases hcovers htyped
  | add => exact Or.inl (h.buildBinary_ok .add (m := .op .add) hcovers)
  | sub => exact Or.inl (h.buildBinary_ok .sub (m := .op .sub) hcovers)
  | mul => exact Or.inl (h.buildBinary_ok .mul (m := .op .mul) hcovers)
  | div => exact Or.inl (h.buildBinary_ok .div (m := .op .div) hcovers)
  | pow => exact Or.inl (h.buildBinary_ok .pow (m := .op .pow) hcovers)
  | paren => exact Or.inl (h.buildEnclosed_ok .lparen .rparen (by decide) hcovers)
  | ref => exact Or.inl (h.buildEnclosed_ok .less .greater (by decide) hcovers)
  | neg =>
    obtain ⟨_, _, _, rfl, rfl, -, hcovers⟩ := h.uncons_mark (m := .op .sub) hcovers
    obtain ⟨e, _, _, _, _, rfl, rfl, -⟩ := hcovers.uncons_node (by decide)
    exact Or.inl ⟨_, rfl⟩
  | int =>
    obtain ⟨t, _, _, rfl, rfl, ht, -⟩ := h.uncons_mark (m := .int) hcovers
    obtain ⟨n, hn⟩ := (htyped t.1 List.mem_cons_self).int ht
    exact Or.inl ⟨.int n span, by simp only [build, buildInt, takePayload, hn]; rfl⟩
  | float =>
    obtain ⟨t, _, _, rfl, rfl, ht, -⟩ := h.uncons_mark (m := .float) hcovers
    obtain ⟨x, hx⟩ := (htyped t.1 List.mem_cons_self).float ht
    exact Or.inl ⟨.float x span, by simp only [build, buildFloat, takePayload, hx]; rfl⟩
  | var =>
    obtain ⟨_, name, _, _, rfl, rfl, hname, -⟩ := h.uncons_ident hcovers htyped
    exact Or.inl ⟨.var name span, by simp only [build, takeIdent_token hname]; rfl⟩
  | refName =>
    obtain ⟨_, name, _, _, rfl, rfl, hname, -⟩ := h.uncons_ident hcovers htyped
    exact Or.inl ⟨.latest ⟨name, none⟩ span, by simp only [build, takeIdent_token hname]; rfl⟩
  | refSpec =>
    obtain ⟨key, _, _, hkey, -⟩ := h.takeKey_ok (m := .colon) span hcovers htyped
    exact Or.inl ⟨.latest key span, by simp only [build, hkey]; rfl⟩
  | refTime =>
    obtain ⟨key, _, _, hkey, hcovers⟩ := h.takeKey_ok (m := .colon) span hcovers htyped
    obtain ⟨_, _, _, rfl, rfl, -, hcovers⟩ := h.uncons_mark (m := .lbracket) hcovers
    obtain ⟨time, _, _, _, _, rfl, rfl, -⟩ := hcovers.uncons_node (by decide)
    exact Or.inl ⟨.sample key time span, by simp only [build, hkey]; rfl⟩

end Ruled

/-! Runs. -/

/-- As many nodes are built as reductions are counted. -/
def Balanced {σ : Type} (q q' : Parser σ Nat) : Prop :=
  ∃ k, q'.builder = q.builder + k ∧ q'.stats.reductions = q.stats.reductions + k

theorem Balanced.trans {σ : Type} {q q' q'' : Parser σ Nat} (h : Balanced q q')
    (h' : Balanced q' q'') : Balanced q q'' := by
  obtain ⟨k, hbuilder, hreductions⟩ := h
  obtain ⟨k', hbuilder', hreductions'⟩ := h'
  exact ⟨k + k', by rw [hbuilder', hbuilder, Nat.add_assoc],
    by rw [hreductions', hreductions, Nat.add_assoc]⟩

/-- What a run that shifted the tokens can end with instead of a node. -/
inductive Reports (rules : List Rule) (tokens : List Token) : ParseError → Prop where
  | lexical {span : Span} {found : String} : Reports rules tokens (.lexical span found)
  | unexpectedEnd {span : Span} : Reports rules tokens (.unexpectedEnd span)
  | syntactic {span : Span} {found expected : String} :
      Reports rules tokens (.syntactic span found expected)
  | unknownFunction {before calling : List Token} {name : String} {span : Span} :
      tokens = before ++ calling → Calling rules name calling →
      name ∉ ["sin", "cos", "sqrt", "abs", "exp", "log"] →
      Reports rules tokens (.semantic span s!"unknown function {name}")

theorem Reports.of_refuses {rules : List Rule} {tokens : List Token} {t : Token} {err : ParseError}
    (h : err.Refuses t) : Reports rules tokens err := by
  cases h with
  | unexpectedEnd => exact .unexpectedEnd
  | syntactic => exact .syntactic

theorem notMem_of_ofName? (h : Function.ofName? name = none) :
    name ∉ ["sin", "cos", "sqrt", "abs", "exp", "log"] := by
  have hnames : ["sin", "cos", "sqrt", "abs", "exp", "log"] = Function.all.map Function.name := rfl
  rw [hnames]
  intro hmem
  obtain ⟨f, hf, rfl⟩ := List.mem_map.mp hmem
  simpa using List.find?_eq_none.mp h f hf

/-- How a step comes out. -/
inductive Outcome {σ : Type} (rules : List Rule) (tokens : List Token) (c : Config σ Nat Expr) :
    Progress σ Nat Expr → Prop where
  | more {c' : Config σ Nat Expr} : Balanced c.parser c'.parser → Outcome rules tokens c (.more c')
  | done {result : Except ParseError Expr} {q : Parser σ Nat} : Balanced c.parser q →
      (∀ err, result = .error err → Reports rules tokens err) →
      Outcome rules tokens c (.done result q)

theorem Outcome.refused {rules : List Rule} {tokens : List Token} {c : Config Scanner Nat Expr}
    (e : Engine Scanner Nat Expr) (t : Token) :
    Outcome rules tokens c (.done (.error (e.refuse (topState c.frames) t)) c.parser) := by
  refine .done ⟨0, rfl, rfl⟩ ?_
  rintro _ ⟨⟩
  exact .of_refuses (refuses_refuse e _ t)

theorem typed_of_steps {q : Parser Scanner Nat} {text : String} {tokens : List Token}
    {c : Config Scanner Nat Expr} (h : Steps (engine g) ((engine g).start q text) tokens c) :
    ∀ t ∈ tokens, t.Typed := by
  obtain ⟨ts, htaken, rfl, -⟩ := h.taken rfl
  intro t ht
  exact Scanner.typed_of_taken htaken t (List.mem_append_left _ (List.mem_of_mem_filter ht))

namespace Calculates

variable (h : Calculates p (engine g)) {q : Parser Scanner Nat} {text : String}
  {tokens : List Token} {c : Config Scanner Nat Expr}
  (hsteps : Steps (engine g) ((engine g).start q text) tokens c)
include h hsteps

theorem outcome_of_reduce {t : Token} {s : SymbolId} {i : Nat} {rule : Rule}
    (hreduce : (g.state (topState c.frames)).reduce? s = some i) (hi : i ≠ 0)
    (hrule : g.rules[i]? = some rule) : Outcome g.rules tokens c ((engine g).reduce c t rule) := by
  obtain ⟨start, hready⟩ := h.ready
  obtain ⟨-, hpop⟩ := reduction_of_reachable hready hsteps (t := t) hreduce
  obtain ⟨rule', next, hrule', hle, hsymbols, hnext⟩ := hpop hi
  obtain rfl := Option.some.inj (hrule.symm.trans hrule')
  obtain ⟨before, top, htokens, hcovers⟩ := covers_popped hready hsteps hsymbols
  have htyped : ∀ t ∈ top, t.Typed := fun t ht =>
    typed_of_steps hsteps t (htokens ▸ List.mem_append_right before ht)
  obtain ⟨f, rfl⟩ : ∃ f : Form, rule = f.placed p := by
    rcases h.ruled.cases hrule with ⟨h0, -⟩ | ⟨f, -, hf⟩
    · exact absurd h0 hi
    · exact ⟨f, hf⟩
  have hsides : Covers registry g.rules f.sides.2 top ((popped c (f.placed p)).map (·.child)) :=
    h.ruled.symbols ▸ hcovers
  have hcall : (engine g).call c t (f.placed p) = applyRule c.parser.builder f.id
      ((popped c (f.placed p)).map (·.child)) (spanOf (popped c (f.placed p)) t) := rfl
  rw [reduce_eq hle, hcall, applyRule, Form.ofId?_id]
  rcases h.ruled.build_cases hsides htyped (spanOf (popped c (f.placed p)) t) with ⟨n, hn⟩ |
    ⟨name, hcalling, hname, herror⟩
  · simp only [hn]
    rw [answered, push_eq hnext]
    exact .more ⟨1, rfl, rfl⟩
  · simp only [herror]
    refine .done ⟨0, rfl, rfl⟩ ?_
    rintro _ ⟨⟩
    exact .unknownFunction htokens hcalling (notMem_of_ofName? hname)

theorem outcome : Outcome g.rules tokens c ((engine g).step c) := by
  have heffect := (engine g).step_effect c
  generalize (engine g).step c = progress at heffect
  cases heffect with
  | broken hahead herror =>
    refine .done ⟨0, rfl, rfl⟩ ?_
    rintro _ ⟨⟩
    rcases Scanner.next_error herror with ⟨span, found, rfl⟩ | ⟨span, rfl⟩
    · exact .lexical
    · exact .unexpectedEnd
  | fetched => exact .more ⟨0, rfl, rfl⟩
  | unknown => exact .refused _ _
  | stuck => exact .refused _ _
  | shifted => exact .more ⟨0, rfl, rfl⟩
  | @accepted t _ _ _ _ hreduce =>
    obtain ⟨start, hready⟩ := h.ready
    obtain ⟨n, haccept⟩ := (reduction_of_reachable hready hsteps (t := t) hreduce).1 rfl
    rw [haccept]
    exact .done ⟨0, rfl, rfl⟩ nofun
  | lost => exact .refused _ _
  | reduced _ _ _ hreduce hi hrule => exact h.outcome_of_reduce hsteps hreduce hi hrule

theorem balanced_of_steps : Balanced q c.parser := by
  induction hsteps with
  | refl => exact ⟨0, rfl, rfl⟩
  | step hsteps hstep ih =>
    have houtcome := h.outcome hsteps
    rw [hstep] at houtcome
    cases houtcome with
    | more hbalanced => exact ih.trans hbalanced

end Calculates

/-- What the builder would say of children that do not fit. -/
def complaints : List String :=
  ["expected a subexpression", "expected a token", "expected an identifier", "expected an integer",
    "expected a number"]

/-- The errors that would mean that grammar, parser and builder do not fit together. -/
def Misfit : ParseError → Prop
  | .notConfigured | .unhandledReduction _ _ => True
  | .semantic _ reason => reason ∈ complaints
  | _ => False

theorem not_misfit_of_reports {rules : List Rule} {tokens : List Token} {err : ParseError}
    (h : Reports rules tokens err) : ¬ Misfit err := by
  cases h with
  | lexical | unexpectedEnd | syntactic => exact id
  | @unknownFunction _ _ name =>
    -- complaints begin with another letter
    have hfirst : ∀ reason ∈ complaints, reason.toList.head? = some 'e' := by decide
    intro hmem
    have he := hfirst _ hmem
    rw [String.toList_append] at he
    cases he

/-- Whatever the level of the unary minus, the builder of the calculator builds one node for each
reduction, and when a parser fails it is for the text: the scanner or the parser cannot go on, or
the tokens come to the end of a call whose name is none of a function. -/
theorem parse_builds (p : Int) : ∃ g, grammar p = .ok g ∧
    ∀ (q : Parser Scanner Nat) (text : String),
    (∃ fuel result, (engine g).parse fuel q text = some result) ∧
    ∀ fuel result q', (engine g).parse fuel q text = some (result, q') →
      (∃ reductions, q'.builder = q.builder + reductions ∧
        q'.stats.reductions = q.stats.reductions + reductions) ∧
      ∀ err, result = .error err → ¬ Misfit err ∧
        ∃ tokens c, Steps (engine g) ((engine g).start q text) tokens c ∧
          (engine g).step c = .done (.error err) q' ∧ Reports g.rules tokens err := by
  obtain ⟨g, hgrammar, -, hg⟩ := exists_grammar p
  have h : Calculates p (engine g) := ⟨hg, rfl⟩
  refine ⟨g, hgrammar, fun q text => ⟨?_, fun fuel result q' hparse => ?_⟩⟩
  · obtain ⟨supplied, hsupplied⟩ := Scanner.exists_supplies (q.source.setInput text)
    obtain ⟨fuel, result, hrun⟩ := h.halts q text hsupplied
    exact ⟨fuel, result, (h.parse_eq_run fuel q text).trans hrun⟩
  · rw [h.parse_eq_run] at hparse
    obtain ⟨tokens, c, hsteps, hdone⟩ := steps_of_run hparse
    have houtcome := h.outcome hsteps
    rw [hdone] at houtcome
    cases houtcome with
    | done hbalanced hreports =>
      refine ⟨(h.balanced_of_steps hsteps).trans hbalanced, ?_⟩
      rintro err rfl
      exact ⟨not_misfit_of_reports (hreports err rfl), tokens, c, hsteps, hdone, hreports err rfl⟩

end CanonicalLR.Calculator

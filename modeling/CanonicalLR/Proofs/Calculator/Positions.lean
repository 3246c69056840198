import CanonicalLR.Proofs.Calculator.Reprinting
import CanonicalLR.Proofs.Scanner.Trimming

/-! The places of expressions. At every depth the operands of an expression lie in its place, one
behind the other, and an expression that was parsed reaches from the first character of the text
that is not blank to the last. -/

namespace CanonicalLR.Calculator

open Engine

variable {span : Span} {cs rest : Children} {places : List Span} {tokens : List Token} {f : Form}
  {e n : Expr} {name : String} {key : Key}

namespace Expr

def children : Expr → List Expr
  | int _ _ | float _ _ | var _ _ | latest _ _ => []
  | neg e _ | call _ e _ | sample _ e _ => [e]
  | binary _ lhs rhs _ => [lhs, rhs]

/-- At every depth the operands lie inside, one behind the other. -/
inductive Nested : Expr → Prop where
  | intro {e : Expr} : (∀ e' ∈ e.children, Nested e') →
      (∀ e' ∈ e.children, e'.span.Within e.span) →
      (e.children.map Expr.span).Pairwise Span.Before → Nested e

theorem children_withSpan (span : Span) (e : Expr) : (e.withSpan span).children = e.children := by
  cases e <;> rfl

theorem Nested.withSpan (h : e.Nested) (hspan : e.span.Within span) : (e.withSpan span).Nested := by
  cases h with
  | intro hnested hwithin hapart =>
    rw [← children_withSpan span e] at hnested hwithin hapart
    refine .intro hnested (fun e' he' => ?_) hapart
    rw [span_withSpan]
    exact (hwithin e' he').trans hspan

end Expr

/-! What the builder takes from its children. -/

def nodes (cs : Children) : List Expr :=
  cs.filterMap fun
    | .node n => some n
    | .token _ => none

theorem nodes_drop (cs : Children) (k : Nat) : (nodes (cs.drop k)).Sublist (nodes cs) :=
  (List.drop_sublist k cs).filterMap _

theorem nodes_takeNode (h : takeNode span cs = .ok (n, rest)) : nodes cs = n :: nodes rest := by
  unfold takeNode at h
  split at h
  · cases h
    rfl
  · cases h

theorem exists_of_takePayload {payload : Payload} (h : takePayload span cs = .ok (payload, rest)) :
    ∃ t, cs = .token t :: rest := by
  unfold takePayload at h
  split at h
  · cases h
    exact ⟨_, rfl⟩
  · cases h

theorem nodes_takeIdent (h : takeIdent span cs = .ok (name, rest)) : nodes cs = nodes rest := by
  obtain ⟨⟨payload, rest'⟩, hpayload, h⟩ := bind_ok h
  obtain ⟨t, rfl⟩ := exists_of_takePayload hpayload
  cases payload <;> cases h
  rfl

theorem nodes_takeKey (h : takeKey span cs = .ok (key, rest)) :
    (nodes rest).Sublist (nodes cs) := by
  obtain ⟨⟨name, cs₁⟩, hname, h⟩ := bind_ok h
  obtain ⟨⟨spec, cs₂⟩, hspec, h⟩ := bind_ok h
  cases h
  rw [nodes_takeIdent hname, ← nodes_takeIdent hspec]
  exact nodes_drop cs₁ 1

theorem sublist_of_takeNode (h : takeNode span (cs.drop 1) = .ok (n, rest)) :
    [n].Sublist (nodes cs) := by
  have hsublist := nodes_drop cs 1
  rw [nodes_takeNode h] at hsublist
  exact (List.Sublist.cons_cons n (List.nil_sublist _)).trans hsublist

theorem children_of_buildBinary {o : Operator} (h : buildBinary o span cs = .ok e) :
    e.children.Sublist (nodes cs) := by
  obtain ⟨⟨lhs, rest⟩, hlhs, h⟩ := bind_ok h
  obtain ⟨⟨rhs, _⟩, hrhs, h⟩ := bind_ok h
  cases h
  rw [nodes_takeNode hlhs]
  exact .cons_cons lhs (sublist_of_takeNode hrhs)

/-- The children of what is built are among the nodes it is built from, or it is one of these in a
new place. -/
theorem children_of_build (h : build span cs f = .ok e) :
    e.children.Sublist (nodes cs) ∨ ∃ inner ∈ nodes cs, e = inner.withSpan span := by
  have henclosed : buildEnclosed span cs = .ok e → ∃ inner ∈ nodes cs, e = inner.withSpan span := by
    intro h
    obtain ⟨⟨inner, _⟩, hinner, h⟩ := bind_ok h
    cases h
    exact ⟨inner, List.singleton_sublist.mp (sublist_of_takeNode hinner), rfl⟩
  cases f with
  | add | sub | mul | div | pow => exact Or.inl (children_of_buildBinary h)
  | paren | ref => exact Or.inr (henclosed h)
  | neg =>
    obtain ⟨⟨inner, _⟩, hinner, h⟩ := bind_ok h
    cases h
    exact Or.inl (sublist_of_takeNode hinner)
  | int | float =>
    obtain ⟨⟨payload, _⟩, -, h⟩ := bind_ok h
    cases payload <;> cases h
    exact Or.inl (List.nil_sublist _)
  | var | refName | refSpec =>
    obtain ⟨_, -, h⟩ := bind_ok h
    cases h
    exact Or.inl (List.nil_sublist _)
  | call =>
    obtain ⟨⟨name, rest⟩, hname, h⟩ := bind_ok h
    simp only at h
    split at h
    · cases h
    · obtain ⟨⟨arg, _⟩, harg, h⟩ := bind_ok h
      cases h
      rw [nodes_takeIdent hname]
      exact Or.inl (sublist_of_takeNode harg)
  | refTime =>
    obtain ⟨⟨key, rest⟩, hkey, h⟩ := bind_ok h
    obtain ⟨⟨time, _⟩, htime, h⟩ := bind_ok h
    cases h
    exact Or.inl ((sublist_of_takeNode htime).trans (nodes_takeKey hkey))

/-! Nodes in their places. -/

/-- The nodes among the children are nested and have their places. -/
structure Seated (cs : Children) (places : List Span) : Prop where
  nested : ∀ n ∈ nodes cs, n.Nested
  places : ((nodes cs).map Expr.span).Sublist places

theorem nested_of_build (h : build span cs f = .ok e) (hseated : Seated cs places)
    (hextent : Extent tokens places span) : e.Nested := by
  have hwithin : ∀ n ∈ nodes cs, n.span.Within span :=
    fun n hn => hextent.within _ (hseated.places.subset (List.mem_map_of_mem hn))
  rcases children_of_build h with hchildren | ⟨inner, hinner, rfl⟩
  · refine .intro (fun e' he' => hseated.nested e' (hchildren.subset he')) (fun e' he' => ?_)
      (hextent.apart.sublist ((hchildren.map Expr.span).trans hseated.places))
    rw [span_of_build h]
    exact hwithin e' (hchildren.subset he')
  · exact (hseated.nested inner hinner).withSpan (hwithin inner hinner)

theorem build_of_applyRule {count count' id : Nat}
    (h : applyRule count id cs span = (.ok (some n), count')) : ∃ f, build span cs f = .ok n := by
  unfold applyRule at h
  split at h
  · cases h
  · next f _ =>
    split at h
    · cases h
    · next hbuild =>
      cases h
      exact ⟨f, hbuild⟩

theorem seated_of_located {r : Registry} {rules : List Rule} {roots : List SymbolId}
    {calls : List (Call Expr)} (h : Located r rules roots tokens calls cs places)
    (hcalls : ∀ call ∈ calls, ∃ count, (builder.apply count call.lhs call.rule call.children
      call.span).1 = call.answer) : Seated cs places := by
  induction h with
  | nil => exact ⟨nofun, List.nil_sublist _⟩
  | token _ _ ih =>
    obtain ⟨hnested, hplaces⟩ := ih hcalls
    exact ⟨hnested, hplaces.cons _⟩
  | @node rule roots front tokens calls calls' parts children inner places place n _ _ hextent _
      ihparts ih =>
    obtain ⟨hbelow, hbehind⟩ := List.forall_mem_append.mp hcalls
    obtain ⟨⟨count, hanswer⟩, hbehind⟩ := List.forall_mem_cons.mp hbehind
    obtain ⟨f, hbuild⟩ : ∃ f, build place parts f = .ok n :=
      build_of_applyRule (Prod.ext hanswer rfl)
    obtain ⟨hnested, hplaces⟩ := ih hbehind
    refine ⟨List.forall_mem_cons.mpr ⟨nested_of_build hbuild (ihparts hbelow) hextent, hnested⟩, ?_⟩
    have hnodes : (nodes (.node n :: children)).map Expr.span =
        place :: (nodes children).map Expr.span := by
      rw [← span_of_build hbuild]
      rfl
    rw [hnodes]
    exact hplaces.cons_cons place

/-! Expressions of texts. -/

variable {p : Int} {g : Grammar}

theorem Ruled.rhs_ne_nil (h : Ruled p g) : ∀ rule ∈ g.rules, rule.rhs ≠ [] := by
  rw [h.rules]
  refine List.forall_mem_cons.mpr ⟨List.cons_ne_nil _ _, fun rule hrule => ?_⟩
  obtain ⟨f, -, rfl⟩ := List.mem_map.mp hrule
  have hrhs : (f.placed p).rhs = f.sides.2 := rfl
  rw [hrhs]
  cases f <;> exact List.cons_ne_nil _ _

namespace Calculates

variable (h : Calculates p (engine g)) {q q' : Parser Scanner Nat} {text : String} {fuel : Nat}
  {ts : List Token}
include h

theorem tokens_eq {c : Config Scanner Nat Expr}
    (hsteps : Steps (engine g) ((engine g).start q text) tokens c)
    (hdone : (engine g).step c = .done (.ok n) q')
    (hts : Delivers Scanner.source ts (q.source.setInput text)) : tokens = solid ts := by
  obtain ⟨start, hready⟩ := h.ready
  obtain ⟨t, -, hahead, -⟩ := accept_of_done hdone
  cases feeding_of_steps hready h.not_mentions_finish hsteps rfl rfl hts with
  | ended _ _ hsolid => exact hsolid.symm
  | coming hrest hsolid =>
    have hmem : t ∈ solid ts := by simp [hsolid, hahead]
    have hno := hts.not_isEnd t (List.mem_of_mem_filter hmem)
    cases hno.symm.trans (isEnd_of_accept hready hsteps hdone hahead)

theorem type_ne_str {t : Token} {word : List SymbolId} (hspelling : Spelling g.symbols tokens word)
    (ht : t ∈ tokens) : t.type ≠ TokenKind.str.type := by
  intro htype
  have hmem : g.symbols.byType? t.type ∈ word.map some := by
    rw [← show tokens.map (fun t => g.symbols.byType? t.type) = word.map some from hspelling]
    exact List.mem_map_of_mem ht
  obtain ⟨s, -, hs⟩ := List.mem_map.mp hmem
  have hsymbols : g.symbols = Vocabulary.registry := h.ruled.symbols
  have hnone : Vocabulary.registry.byType? TokenKind.str.type = none := by decide +kernel
  rw [hsymbols, htype, hnone] at hs
  cases hs

/-- Where a text is parsed, the parser has shifted its solid tokens, which stand in order. -/
theorem exists_run (hparse : (engine g).parse fuel q text = some (.ok n, q')) :
    ∃ tree word ts r c, Delivers Scanner.source ts (q.source.setInput text) ∧ InOrder (solid ts) ∧
      Spelling g.symbols (solid ts) word ∧
      Steps (engine g).recorded ((engine g).recorded.start q.recorded text) (solid ts) c ∧
      (engine g).recorded.step c = .done (.ok n) r ∧
      Walk g.symbols [tree] (solid ts) r.builder.2 [.node n] := by
  obtain ⟨start, hready⟩ := h.ready
  obtain ⟨tree, word, tokens, r, c, hparses, -, -, hsteps, hdone, hwalk⟩ :=
    tree_of_parse hready hparse
  obtain ⟨ts, hts, -⟩ := h.exists_delivers hparse
  have hplain : (engine g).step c.plain = .done (.ok n) r.plain := by
    rw [step_plain, hdone]
    rfl
  obtain rfl := h.tokens_eq hsteps.plain hplain hts
  exact ⟨tree, word, ts, r, c, hts, (Scanner.tiles_of_delivers hts).inOrder_filter _,
    hparses.spelling hwalk, hsteps, hdone, hwalk⟩

theorem nested_and_trims (hparse : (engine g).parse fuel q text = some (.ok n, q')) :
    n.Nested ∧ Scanner.Trims text.toList n.span := by
  obtain ⟨start, hready⟩ := h.ready
  obtain ⟨-, word, ts, r, c, hts, hinorder, hspelling, hsteps, hdone, -⟩ := h.exists_run hparse
  obtain ⟨t, s, -, -, -, -, haccept⟩ := accept_of_done hdone
  obtain ⟨-, f, hframes, hchild⟩ := accept_ok haccept
  have hlocated := located_of_steps hready h.ruled.rhs_ne_nil hsteps hinorder
  rw [LocatedStack, hframes, List.reverse_singleton, List.map_singleton, List.map_singleton,
    hchild] at hlocated
  have hseated := seated_of_located hlocated (answered_of_steps hready hsteps)
  obtain ⟨place, hjoin, hextent⟩ := hlocated.extent hinorder (by simp [spelled])
  have hspan : n.span = place := by
    obtain rfl := Option.some.inj hjoin
    exact List.mem_singleton.mp (List.singleton_sublist.mp hseated.places)
  refine ⟨hseated.nested n List.mem_cons_self, ?_⟩
  -- the text may have strings in it for the scanner, but then it is not parsed
  rw [hspan]
  exact Scanner.trims_of_delivers hts hextent.range fun t ht => h.type_ne_str hspelling ht

end Calculates

/-- Where no rule is empty and tokens stand one behind the other, every call of a tree builder, in
any run, is given the extent of the tokens that its rule derives, and so at every depth below it;
and every expression that the calculator parses has its operands side by side in its place, at every
depth, and reaches from the first character of the text that is not blank to the last. -/
theorem parse_places :
    (∀ {σ β ν : Type} {g : Grammar} (e : Engine σ β ν), g.Built →
      g.configure = (.ok (), e.grammar) →
      (∀ rule ∈ g.clients, rule.rhs ≠ [] ∧ .start ∉ rule.rhs) →
      ∀ (p : Parser σ β) (text : String) (tokens : List Token)
        (c : Config σ (β × List (Call ν)) ν) (before after : List (Call ν)) (call : Call ν),
      Steps e.recorded (e.recorded.start p.recorded text) tokens c → InOrder tokens →
      (e.recorded.step c).parser.builder.2 = before ++ call :: after →
      call.Spans e tokens before) ∧
    ∀ p : Int, ∃ g, grammar p = .ok g ∧ ∀ (q : Parser Scanner Nat) (text : String) fuel n q',
      (engine g).parse fuel q text = some (.ok n, q') →
      n.Nested ∧ Scanner.Trims text.toList n.span := by
  refine ⟨fun e hg h hclients p text tokens c before after call hsteps hinorder hcalls => ?_,
    fun p => ?_⟩
  · obtain ⟨start, hready⟩ := Grammar.Ready.of_ok hg h fun rule hrule => (hclients rule hrule).2
    exact spans_of_run hready (rhs_ne_nil hg h fun rule hrule => (hclients rule hrule).1) hsteps
      hinorder hcalls
  · obtain ⟨g, hgrammar, -, hg⟩ := exists_grammar p
    have h : Calculates p (engine g) := ⟨hg, rfl⟩
    exact ⟨g, hgrammar, fun q text fuel n q' hparse => h.nested_and_trims hparse⟩

/-! A sum in parentheses with blanks around it. -/

def sumText : String := " (1 + 2)\t"

def sumTokens : List Token :=
  [⟨.single 0, TokenKind.whitespace.type, .none⟩, .punct (.single 1) '(',
    ⟨.single 2, TokenKind.int.type, .int 1⟩, ⟨.single 3, TokenKind.whitespace.type, .none⟩,
    .punct (.single 4) '+', ⟨.single 5, TokenKind.whitespace.type, .none⟩,
    ⟨.single 6, TokenKind.int.type, .int 2⟩, .punct (.single 7) ')',
    ⟨.single 8, TokenKind.whitespace.type, .none⟩, .finish 9]

def sumExpr : Expr := .binary .add (.int 1 (.single 2)) (.int 2 (.single 6)) ⟨1, 7⟩

theorem sum_scanAll : (newParser.source.scanAll sumText).1 = .ok sumTokens := by
  have h : (newParser.source.scanAll sumText).1.toOption = some sumTokens := by decide +kernel
  exact toOption_eq_some_iff.mp h

theorem sum_read : read p (significant sumTokens) = some sumExpr := by
  have hsolid : significant sumTokens = [.punct (.single 1) '(',
      ⟨.single 2, TokenKind.int.type, .int 1⟩, .punct (.single 4) '+',
      ⟨.single 6, TokenKind.int.type, .int 2⟩, .punct (.single 7) ')'] := by decide +kernel
  rw [hsolid, read_eq]
  have hadd : Operator.add.extends (Context.pending p [.paren ⟨.punct (.single 1) '(', rfl⟩]) :=
    trivial
  have hrparen : Stops (some Operator.add.level) [.punct (.single 7) ')'] :=
    stops_of (m := .rparen) ⟨_, rfl⟩ nofun _
  refine (start_paren ⟨_, rfl⟩).trans ((start_int ⟨_, rfl⟩).trans
    ((resume_extends ⟨_, rfl⟩ hadd).trans ((start_int ⟨_, rfl⟩).trans ?_)))
  exact (resume_operator hrparen).trans ((resume_paren ⟨_, rfl⟩).trans resume_nil)

theorem exists_last_call {r : Registry} {tree : Tree} {calls : List (Call Expr)}
    (h : Walk r [tree] tokens calls [.node n]) :
    ∃ before call, calls = before ++ [call] ∧ call.answer = .ok (some n) := by
  cases h with
  | @node rule below _ _ _ calls _ parts _ span _ _ hrest =>
    cases hrest
    exact ⟨calls, _, rfl, rfl⟩

theorem sum_parse_places :
    (∃ tokens c before, ∃ call : Call Expr, Steps (engine defaultGrammar).recorded
        ((engine defaultGrammar).recorded.start newParser.recorded sumText) tokens c ∧
      InOrder tokens ∧ call.answer = .ok (some sumExpr) ∧
      call.Spans (engine defaultGrammar) tokens before) ∧
    sumExpr.Nested ∧ Scanner.Trims sumText.toList sumExpr.span := by
  obtain ⟨fuel, q', hparse⟩ := calculates_default.exists_parse_of_scanAll sum_scanAll sum_read
  have hclients : ∀ rule ∈ (rawGrammar defaultNegLevel).clients, rule.rhs ≠ [] ∧ .start ∉ rule.rhs :=
    fun rule hrule => ⟨(rawGrammar_ruled _).rhs_ne_nil rule (List.mem_of_mem_drop hrule),
      fun hmem => (not_mentions _ rule hrule).1 (Or.inr hmem)⟩
  obtain ⟨tree, -, ts, r, c, -, hinorder, -, hsteps, hdone, hwalk⟩ :=
    calculates_default.exists_run hparse
  obtain ⟨before, call, hcalls, hanswer⟩ := exists_last_call hwalk
  have hlog : ((engine defaultGrammar).recorded.step c).parser.builder.2 = before ++ call :: [] := by
    rw [hdone]
    exact hcalls
  obtain ⟨g, hgrammar, hplaces⟩ := parse_places.2 defaultNegLevel
  have hconfigured : grammar defaultNegLevel = .ok (engine defaultGrammar).grammar :=
    Grammar.configured_eq calculates_default.configure
  have hdefault : g = defaultGrammar := by
    rw [Except.ok.inj (hgrammar.symm.trans hconfigured), engine]
  rw [hdefault] at hplaces
  exact ⟨⟨solid ts, c, before, call, hsteps, hinorder, hanswer,
    parse_places.1 (engine defaultGrammar) (rawGrammar_built _) calculates_default.configure hclients
      newParser sumText (solid ts) c before [] call hsteps hinorder hlog⟩,
    hplaces newParser sumText fuel sumExpr q' hparse⟩

end CanonicalLR.Calculator

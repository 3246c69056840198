import CanonicalLR.Proofs.Derivation.Tree
import CanonicalLR.Proofs.Parser.Steps
import CanonicalLR.Proofs.Symbol.Registry

/-! Parsers that write down the calls of their tree builder. Writing them down changes nothing else,
and the calls are compared with the post-order traversals of derivation trees. -/

namespace CanonicalLR

variable {σ β ν : Type}

structure Call (ν : Type) where
  lhs : SymbolId
  rule : Rule
  children : List (Child ν)
  span : Span
  answer : Except ParseError (Option ν)

/-- The builder with a list of its calls, the first one first. -/
def Builder.recorded (b : Builder β ν) : Builder (β × List (Call ν)) ν where
  apply := fun (state, calls) lhs rule children span =>
    let (answer, state) := b.apply state lhs rule children span
    (answer, state, calls ++ [⟨lhs, rule, children, span, answer⟩])

def Engine.recorded (e : Engine σ β ν) : Engine σ (β × List (Call ν)) ν :=
  { e with builder := e.builder.recorded }

def Parser.recorded (p : Parser σ β) : Parser σ (β × List (Call ν)) :=
  ⟨p.source, (p.builder, []), p.stats⟩

/-! Without the calls everything is as before. -/

def Parser.plain (p : Parser σ (β × List (Call ν))) : Parser σ β :=
  ⟨p.source, p.builder.1, p.stats⟩

def Config.plain (c : Config σ (β × List (Call ν)) ν) : Config σ β ν :=
  ⟨c.frames, c.ahead, c.parser.plain⟩

def Progress.plain : Progress σ (β × List (Call ν)) ν → Progress σ β ν
  | .more c => .more c.plain
  | .done result p => .done result p.plain

namespace Engine

variable {e : Engine σ β ν}

theorem push_plain (t : Token) (rule : Rule) (frames : List (Frame ν)) (span : Span) (n : ν)
    (p : Parser σ (β × List (Call ν))) :
    e.push t rule frames span n p.plain = (e.recorded.push t rule frames span n p).plain := by
  have hg : e.recorded.grammar = e.grammar := rfl
  cases h : (e.grammar.state (topState frames)).shift? rule.lhs with
  | none => simp only [push, hg, h]; rfl
  | some next => simp only [push, hg, h]; rfl

theorem reduce_plain (c : Config σ (β × List (Call ν)) ν) (t : Token) (rule : Rule) :
    e.reduce c.plain t rule = (e.recorded.reduce c t rule).plain := by
  by_cases hlen : rule.rhs.length ≤ c.frames.length
  · rw [reduce_eq hlen, reduce_eq (show rule.rhs.length ≤ c.plain.frames.length from hlen)]
    have hcall : e.call c.plain t rule =
        ((e.recorded.call c t rule).1, (e.recorded.call c t rule).2.1) := rfl
    rw [hcall]
    rcases e.recorded.call c t rule with ⟨answer, state, calls⟩
    cases answer with
    | error err => rfl
    | ok n =>
      cases n with
      | none => rfl
      | some n => exact push_plain t rule _ _ n ⟨c.parser.source, (state, calls), c.parser.stats⟩
  · have hlt : c.frames.length < rule.rhs.length := Nat.not_le.mp hlen
    have hlt' : c.plain.frames.length < rule.rhs.length := hlt
    rw [reduce_of_lt hlt, reduce_of_lt hlt']
    rfl

theorem accept_plain (c : Config σ (β × List (Call ν)) ν) (t : Token) :
    e.accept c.plain t = (e.recorded.accept c t).plain := by
  have hframes : c.plain.frames = c.frames := rfl
  unfold accept
  rw [hframes]
  split <;> rfl

theorem step_plain (e : Engine σ β ν) (c : Config σ (β × List (Call ν)) ν) :
    e.step c.plain = (e.recorded.step c).plain := by
  have hahead : c.plain.ahead = c.ahead := rfl
  have hg : e.recorded.grammar = e.grammar := rfl
  unfold step
  rw [hahead]
  cases c.ahead with
  | none =>
    rcases hn : e.source.next c.parser.source with ⟨result, source⟩
    have hplain : e.source.next c.plain.parser.source = (result, source) := hn
    have hrecorded : e.recorded.source.next c.parser.source = (result, source) := hn
    simp only
    unfold fetch
    rw [hplain, hrecorded]
    cases result <;> rfl
  | some t =>
    have htop : topState c.plain.frames = topState c.frames := rfl
    simp only [act, hg, htop]
    cases e.grammar.symbols.byType? t.type with
    | none => rfl
    | some s =>
      simp only
      cases (e.grammar.state (topState c.frames)).shift? s with
      | some next => rfl
      | none =>
        cases (e.grammar.state (topState c.frames)).reduce? s with
        | none => rfl
        | some i =>
          cases i with
          | zero => exact accept_plain c t
          | succ i =>
            simp only
            cases e.grammar.rules[i + 1]? with
            | none => rfl
            | some rule => exact reduce_plain c t rule

theorem run_plain (e : Engine σ β ν) (fuel : Nat) (c : Config σ (β × List (Call ν)) ν) :
    e.run fuel c.plain = (e.recorded.run fuel c).map fun (r, p) => (r, p.plain) := by
  induction fuel generalizing c with
  | zero => rfl
  | succ fuel ih =>
    simp only [run, step_plain]
    cases e.recorded.step c with
    | done result p => rfl
    | more c' => exact ih c'

theorem parse_recorded (e : Engine σ β ν) (fuel : Nat) (p : Parser σ β) (text : String) :
    e.parse fuel p text =
      (e.recorded.parse fuel p.recorded text).map fun (r, q) => (r, q.plain) := by
  unfold parse
  split
  · rename_i h
    rw [if_pos (show e.recorded.grammar.isConfigured = true from h)]
    exact run_plain e fuel (e.recorded.start p.recorded text)
  · rename_i h
    rw [if_neg (show ¬ e.recorded.grammar.isConfigured = true from h)]
    rfl

theorem Steps.plain {c₀ c : Config σ (β × List (Call ν)) ν} {tokens : List Token}
    (h : Steps e.recorded c₀ tokens c) : Steps e c₀.plain tokens c.plain := by
  induction h with
  | refl => exact .refl
  | @step _ c _ _ hstep ih =>
    have hplain := e.step_plain c
    rw [hstep] at hplain
    exact ih.step hplain

theorem Steps.recorded {c₀ : Config σ (β × List (Call ν)) ν} {c : Config σ β ν}
    {tokens : List Token} (h : Steps e c₀.plain tokens c) :
    ∃ c', Steps e.recorded c₀ tokens c' ∧ c'.plain = c := by
  induction h with
  | refl => exact ⟨c₀, .refl, rfl⟩
  | @step _ c c' _ hstep ih =>
    obtain ⟨d, hd, rfl⟩ := ih
    rw [step_plain] at hstep
    cases hnext : e.recorded.step d with
    | done result p =>
      rw [hnext] at hstep
      cases hstep
    | more d' =>
      rw [hnext] at hstep
      cases hstep
      exact ⟨d', hd.step hnext, rfl⟩

end Engine

/-! The traversal of trees. -/

/-- The tokens are the leaves of the trees from left to right, the calls those of a builder on a
walk over the trees in post-order, and the children what it is given for their roots. -/
inductive Walk (r : Registry) : List Tree → List Token → List (Call ν) → List (Child ν) → Prop where
  | nil : Walk r [] [] [] []
  | leaf {t : Token} {s : SymbolId} {trees : List Tree} {tokens : List Token}
      {calls : List (Call ν)} {children : List (Child ν)} :
      r.byType? t.type = some s → Walk r trees tokens calls children →
      Walk r (.leaf s :: trees) (t :: tokens) calls (.token t :: children)
  | node {rule : Rule} {below trees : List Tree} {tokens tokens' : List Token}
      {calls calls' : List (Call ν)} {parts children : List (Child ν)} {span : Span} {n : ν} :
      Walk r below tokens calls parts → Walk r trees tokens' calls' children →
      Walk r (.node rule below :: trees) (tokens ++ tokens')
        (calls ++ ⟨rule.lhs, rule, parts, span, .ok (some n)⟩ :: calls') (.node n :: children)

namespace Walk

variable {r : Registry} {trees more : List Tree} {tokens tokens' : List Token}
  {calls calls' : List (Call ν)} {children children' : List (Child ν)}

theorem length_eq (h : Walk r trees tokens calls children) : children.length = trees.length := by
  induction h with
  | nil => rfl
  | leaf _ _ ih => simp [ih]
  | node _ _ _ ih => simp [ih]

theorem append (h : Walk r trees tokens calls children)
    (h' : Walk r more tokens' calls' children') :
    Walk r (trees ++ more) (tokens ++ tokens') (calls ++ calls') (children ++ children') := by
  induction h with
  | nil => exact h'
  | leaf ht _ ih => exact .leaf ht ih
  | node hb _ _ ih =>
    simp only [List.append_assoc, List.cons_append] at ih ⊢
    exact .node hb ih

theorem split (h : Walk r (trees ++ more) tokens calls children) :
    ∃ tokens₁ tokens₂ calls₁ calls₂ children₁ children₂, tokens = tokens₁ ++ tokens₂ ∧
      calls = calls₁ ++ calls₂ ∧ children = children₁ ++ children₂ ∧
      Walk r trees tokens₁ calls₁ children₁ ∧ Walk r more tokens₂ calls₂ children₂ := by
  induction trees generalizing tokens calls children with
  | nil => exact ⟨[], tokens, [], calls, [], children, rfl, rfl, rfl, .nil, h⟩
  | cons tree trees ih =>
    cases h with
    | leaf ht hrest =>
      obtain ⟨_, tokens₂, _, calls₂, _, children₂, rfl, rfl, rfl, hl, hr⟩ := ih hrest
      exact ⟨_, tokens₂, _, calls₂, _, children₂, rfl, rfl, rfl, .leaf ht hl, hr⟩
    | @node rule below _ tokens tokens' calls calls' parts children span n hb hrest =>
      obtain ⟨tokens₁, tokens₂, calls₁, calls₂, children₁, children₂, rfl, rfl, rfl, hl, hr⟩ :=
        ih hrest
      have hnode : Walk r (.node rule below :: trees) _
          (calls ++ ⟨rule.lhs, rule, parts, span, .ok (some n)⟩ :: calls₁) _ := .node hb hl
      exact ⟨_, tokens₂, _, calls₂, _, children₂, by simp, by simp, rfl, hnode, hr⟩

theorem join {left right : List Tree} {parts : List (Child ν)}
    (h : Walk r (left ++ right) tokens calls (children ++ parts))
    (hlen : parts.length = right.length) (rule : Rule) (span : Span) (n : ν) :
    Walk r (left ++ [.node rule right]) tokens
      (calls ++ [⟨rule.lhs, rule, parts, span, .ok (some n)⟩]) (children ++ [.node n]) := by
  obtain ⟨tokens₁, tokens₂, calls₁, calls₂, children₁, children₂, rfl, rfl, hchildren, hleft,
    hright⟩ := h.split
  obtain ⟨rfl, rfl⟩ := List.append_inj' hchildren (hlen.trans hright.length_eq.symm)
  have hnode : Walk r [.node rule right] (tokens₂ ++ [])
      (calls₂ ++ ⟨rule.lhs, rule, parts, span, .ok (some n)⟩ :: []) [.node n] := .node hright .nil
  have hall := hleft.append hnode
  rwa [List.append_nil, ← List.append_assoc] at hall

end Walk

def Spelling (r : Registry) (tokens : List Token) (word : List SymbolId) : Prop :=
  tokens.map (fun t => r.byType? t.type) = word.map some

namespace Spelling

variable {r : Registry} {tokens tokens' : List Token} {word word' : List SymbolId}

theorem append (h : Spelling r tokens word) (h' : Spelling r tokens' word') :
    Spelling r (tokens ++ tokens') (word ++ word') := by
  unfold Spelling at *
  rw [List.map_append, List.map_append, h, h']

theorem singleton {t : Token} {s : SymbolId} (h : r.byType? t.type = some s) :
    Spelling r [t] [s] := by
  simp [Spelling, h]

theorem unique (h : Spelling r tokens word) (h' : Spelling r tokens word') : word = word' :=
  (List.map_inj_right fun _ _ => Option.some.inj).mp (h.symm.trans h')

theorem allTerminal (h : Spelling r tokens word) : AllTerminal r word := by
  intro s hs
  have hmem : some s ∈ tokens.map fun t => r.byType? t.type := by
    rw [show tokens.map (fun t => r.byType? t.type) = word.map some from h]
    exact List.mem_map_of_mem hs
  obtain ⟨t, -, ht⟩ := List.mem_map.mp hmem
  exact Registry.isTerminal_of_byType? ht

theorem split (h : Spelling r (tokens ++ tokens') word) :
    ∃ front back, word = front ++ back ∧ Spelling r tokens front ∧ Spelling r tokens' back := by
  unfold Spelling at h
  rw [List.map_append] at h
  obtain ⟨front, back, rfl, hf, hb⟩ := List.map_eq_append_iff.mp h.symm
  exact ⟨front, back, rfl, hf.symm, hb.symm⟩

end Spelling

theorem Walk.exists_node {r : Registry} {rules : List Rule} {tree : Tree} {s : SymbolId}
    {word : List SymbolId} (hp : Parses r rules [tree] [s] word) (hs : r.isTerminal s = false)
    {tokens : List Token} {calls : List (Call ν)} {child : Child ν}
    (h : Walk r [tree] tokens calls [child]) : ∃ n, child = .node n := by
  cases h with
  | leaf ht _ =>
    have hterm := Registry.isTerminal_of_byType? ht
    cases hp with
    | leaf =>
      rw [hs] at hterm
      cases hterm
  | node => exact ⟨_, rfl⟩

theorem Parses.spelling {r : Registry} {rules : List Rule} {trees : List Tree}
    {roots word : List SymbolId} (h : Parses r rules trees roots word) {tokens : List Token}
    {calls : List (Call ν)} {children : List (Child ν)} (hw : Walk r trees tokens calls children) :
    Spelling r tokens word := by
  induction h generalizing tokens calls children with
  | nil =>
    cases hw
    rfl
  | leaf _ _ ih =>
    cases hw with
    | leaf ht hrest => exact (Spelling.singleton ht).append (ih hrest)
  | node _ _ _ ihc ih =>
    cases hw with
    | node hb hrest => exact (ihc hb).append (ih hrest)

end CanonicalLR

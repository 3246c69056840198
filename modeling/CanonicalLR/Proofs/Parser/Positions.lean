import CanonicalLR.Proofs.Parser.Soundness

/-! The places of reductions. Where tokens stand one behind the other and no rule is empty, a
reduction reaches from the first of its tokens to the last, and its children lie inside it, one
behind the other. -/

namespace CanonicalLR

open Engine

variable {σ β ν : Type}

/-! Places. -/

namespace Span

variable {s s' outer : Span} {places : List Span}

def Before (s s' : Span) : Prop := s.stop < s'.start

def Within (s outer : Span) : Prop := outer.start ≤ s.start ∧ s.stop ≤ outer.stop

theorem Within.refl (s : Span) : s.Within s := ⟨le_rfl, le_rfl⟩

theorem Within.trans (h : s.Within s') (h' : s'.Within outer) : s.Within outer :=
  ⟨h'.1.trans h.1, h.2.trans h'.2⟩

theorem within_join_left (s s' : Span) : s.Within (s.join s') := ⟨min_le_left _ _, le_max_left _ _⟩

theorem within_join_right (s s' : Span) : s'.Within (s.join s') :=
  ⟨min_le_right _ _, le_max_right _ _⟩

theorem join_of_before (hs : s.start ≤ s.stop) (hs' : s'.start ≤ s'.stop) (h : s.Before s') :
    s.join s' = ⟨s.start, s'.stop⟩ := by
  unfold Before at h
  rw [join, min_eq_left (by omega), max_eq_right (by omega)]

instance : Std.Associative join :=
  ⟨fun a b c => by simp only [join, min_assoc, max_assoc]⟩

theorem joinAll_cons (h : joinAll places = some s') : joinAll (s :: places) = some (s.join s') := by
  cases places with
  | nil => cases h
  | cons first places =>
    obtain rfl := Option.some.inj h
    rw [joinAll, List.foldl_cons, List.foldl_assoc]

end Span

/-- From the start of the first token to the end of the last. -/
def rangeOf? (tokens : List Token) : Option Span :=
  tokens.head?.bind fun first => tokens.getLast?.map fun last => ⟨first.span.start, last.span.stop⟩

/-- Each token ends before the next one starts. -/
structure InOrder (tokens : List Token) : Prop where
  forward : ∀ t ∈ tokens, t.span.start ≤ t.span.stop
  apart : tokens.IsChain fun t t' => t.span.Before t'.span

/-- The place of some tokens and the places in it. -/
structure Extent (tokens : List Token) (places : List Span) (place : Span) : Prop where
  range : rangeOf? tokens = some place
  apart : places.Pairwise Span.Before
  within : ∀ s ∈ places, s.Within place

variable {front back tokens tokens' : List Token} {places places' : List Span} {place place' : Span}

theorem rangeOf?_append (hfront : rangeOf? front = some place)
    (hback : rangeOf? back = some place') :
    rangeOf? (front ++ back) = some ⟨place.start, place'.stop⟩ := by
  obtain ⟨first, hfirst, hfront⟩ := Option.bind_eq_some_iff.mp hfront
  obtain ⟨last, hlast, rfl⟩ := Option.map_eq_some_iff.mp hfront
  obtain ⟨first', hfirst', hback⟩ := Option.bind_eq_some_iff.mp hback
  obtain ⟨last', hlast', rfl⟩ := Option.map_eq_some_iff.mp hback
  simp [rangeOf?, List.head?_append, hfirst, List.getLast?_append, hlast']

namespace InOrder

theorem left (h : InOrder (front ++ back)) : InOrder front :=
  ⟨fun t ht => h.forward t (List.mem_append_left _ ht), h.apart.left_of_append⟩

theorem right (h : InOrder (front ++ back)) : InOrder back :=
  ⟨fun t ht => h.forward t (List.mem_append_right _ ht), h.apart.right_of_append⟩

theorem before (h : InOrder (front ++ back)) (hfront : rangeOf? front = some place)
    (hback : rangeOf? back = some place') : place.Before place' := by
  obtain ⟨first, -, hfront⟩ := Option.bind_eq_some_iff.mp hfront
  obtain ⟨last, hlast, rfl⟩ := Option.map_eq_some_iff.mp hfront
  obtain ⟨first', hfirst', hback⟩ := Option.bind_eq_some_iff.mp hback
  obtain ⟨last', -, rfl⟩ := Option.map_eq_some_iff.mp hback
  exact (List.isChain_append.mp h.apart).2.2 last hlast first' hfirst'

theorem start_le_stop (h : InOrder tokens) (hrange : rangeOf? tokens = some place) :
    place.start ≤ place.stop := by
  induction tokens generalizing place with
  | nil => cases hrange
  | cons t tokens ih =>
    have ht := h.forward t List.mem_cons_self
    cases hrest : rangeOf? tokens with
    | none =>
      cases tokens with
      | nil =>
        obtain rfl := Option.some.inj hrange
        exact ht
      | cons t' tokens => simp [rangeOf?, List.getLast?_cons] at hrest
    | some rest =>
      have hsingle : rangeOf? [t] = some t.span := rfl
      have hwhole : InOrder ([t] ++ tokens) := h
      have hlt := hwhole.before hsingle hrest
      have hle := ih hwhole.right hrest
      rw [← List.singleton_append, rangeOf?_append hsingle hrest] at hrange
      obtain rfl := Option.some.inj hrange
      unfold Span.Before at hlt
      dsimp only
      omega

end InOrder

namespace Extent

theorem single (h : rangeOf? tokens = some place) : Extent tokens [place] place where
  range := h
  apart := List.pairwise_singleton _ _
  within := List.forall_mem_singleton.mpr (.refl place)

/-- Tokens in front widen a place by the place of theirs. -/
theorem cons (hfront : rangeOf? front = some place) (h : Extent back places place')
    (hinorder : InOrder (front ++ back)) :
    Extent (front ++ back) (place :: places) (place.join place') where
  range := by
    rw [rangeOf?_append hfront h.range, Span.join_of_before (hinorder.left.start_le_stop hfront)
      (hinorder.right.start_le_stop h.range) (hinorder.before hfront h.range)]
  apart := List.pairwise_cons.mpr ⟨fun s hs =>
    Nat.lt_of_lt_of_le (hinorder.before hfront h.range) (h.within s hs).1, h.apart⟩
  within := List.forall_mem_cons.mpr ⟨Span.within_join_left _ _, fun s hs =>
    (h.within s hs).trans (Span.within_join_right _ _)⟩

end Extent

/-! Walks with places. -/

/-- The tokens, the calls and the children of a walk over a forest with the symbols at its roots,
and the places of the children. A token has its own place; a node has the place that the builder was
given for it, and there it is the extent of the tokens and of the places below it. -/
inductive Located (r : Registry) (rules : List Rule) : List SymbolId → List Token →
    List (Call ν) → List (Child ν) → List Span → Prop where
  | nil : Located r rules [] [] [] [] []
  | token {t : Token} {s : SymbolId} {roots : List SymbolId} {tokens : List Token}
      {calls : List (Call ν)} {children : List (Child ν)} {places : List Span} :
      r.byType? t.type = some s → Located r rules roots tokens calls children places →
      Located r rules (s :: roots) (t :: tokens) calls (.token t :: children) (t.span :: places)
  | node {rule : Rule} {roots : List SymbolId} {front tokens : List Token}
      {calls calls' : List (Call ν)} {parts children : List (Child ν)}
      {inner places : List Span} {place : Span} {n : ν} : rule ∈ rules →
      Located r rules rule.rhs front calls parts inner → Extent front inner place →
      Located r rules roots tokens calls' children places →
      Located r rules (rule.lhs :: roots) (front ++ tokens)
        (calls ++ ⟨rule.lhs, rule, parts, place, .ok (some n)⟩ :: calls') (.node n :: children)
        (place :: places)

namespace Located

variable {r : Registry} {rules : List Rule} {roots roots' : List SymbolId}
  {calls calls' : List (Call ν)} {children children' : List (Child ν)}

theorem length_eq (h : Located r rules roots tokens calls children places) :
    children.length = roots.length ∧ places.length = roots.length := by
  induction h with
  | nil => exact ⟨rfl, rfl⟩
  | token _ _ ih => simp [ih]
  | node _ _ _ _ _ ih => simp [ih]

theorem append (h : Located r rules roots tokens calls children places)
    (h' : Located r rules roots' tokens' calls' children' places') :
    Located r rules (roots ++ roots') (tokens ++ tokens') (calls ++ calls') (children ++ children')
      (places ++ places') := by
  induction h with
  | nil => exact h'
  | token ht _ ih => exact .token ht ih
  | node hr hbelow hextent _ _ ih =>
    simp only [List.append_assoc, List.cons_append] at ih ⊢
    exact .node hr hbelow hextent ih

theorem split (h : Located r rules (roots ++ roots') tokens calls children places) :
    ∃ tokens₁ tokens₂ calls₁ calls₂ children₁ children₂ places₁ places₂,
      tokens = tokens₁ ++ tokens₂ ∧ calls = calls₁ ++ calls₂ ∧ children = children₁ ++ children₂ ∧
      places = places₁ ++ places₂ ∧ Located r rules roots tokens₁ calls₁ children₁ places₁ ∧
      Located r rules roots' tokens₂ calls₂ children₂ places₂ := by
  induction roots generalizing tokens calls children places with
  | nil => exact ⟨[], tokens, [], calls, [], children, [], places, rfl, rfl, rfl, rfl, .nil, h⟩
  | cons s roots ih =>
    cases h with
    | token ht hrest =>
      obtain ⟨_, tokens₂, _, calls₂, _, children₂, _, places₂, rfl, rfl, rfl, rfl, hl, hr⟩ :=
        ih hrest
      exact ⟨_, tokens₂, _, calls₂, _, children₂, _, places₂, rfl, rfl, rfl, rfl, .token ht hl, hr⟩
    | @node rule _ front tokens calls calls' parts children inner places place n hr hbelow hextent
        hrest =>
      obtain ⟨tokens₁, tokens₂, calls₁, calls₂, _, children₂, _, places₂, rfl, rfl, rfl, rfl, hl,
        hright⟩ := ih hrest
      have hnode : Located r rules (rule.lhs :: roots) (front ++ tokens₁)
          (calls ++ ⟨rule.lhs, rule, parts, place, .ok (some n)⟩ :: calls₁) _ _ :=
        .node hr hbelow hextent hl
      exact ⟨_, tokens₂, _, calls₂, _, children₂, _, places₂, by simp, by simp, rfl, rfl, hnode,
        hright⟩

/-- The places of the children together are the extent of all the tokens. -/
theorem extent (h : Located r rules roots tokens calls children places) (hinorder : InOrder tokens)
    (hne : roots ≠ []) : ∃ place, Span.joinAll places = some place ∧ Extent tokens places place := by
  induction h with
  | nil => exact absurd rfl hne
  | @token t s roots tokens calls children places _ hrest ih =>
    have hsingle : rangeOf? [t] = some t.span := rfl
    -- the last child has a place of its own; any other one widens the place of those behind it
    cases hrest with
    | nil => exact ⟨t.span, rfl, .single hsingle⟩
    | token | node =>
      have hwhole : InOrder ([t] ++ _) := hinorder
      obtain ⟨place, hjoin, hextent⟩ := ih hwhole.right (List.cons_ne_nil _ _)
      exact ⟨_, Span.joinAll_cons hjoin, .cons hsingle hextent hwhole⟩
  | @node rule roots front tokens calls calls' parts children inner places place n _ _ hextent hrest
      _ ih =>
    cases hrest with
    | nil =>
      rw [List.append_nil]
      exact ⟨place, rfl, .single hextent.range⟩
    | token | node =>
      obtain ⟨place', hjoin, hrest⟩ := ih hinorder.right (List.cons_ne_nil _ _)
      exact ⟨_, Span.joinAll_cons hjoin, .cons hextent.range hrest hinorder⟩

end Located

/-! Runs. -/

variable {e : Engine σ β ν} {start : SymbolId} {c c' : Config σ (β × List (Call ν)) ν}

/-- The stack holds the roots of a forest with places that has been walked over. -/
def LocatedStack (e : Engine σ β ν) (tokens : List Token) (c : Config σ (β × List (Call ν)) ν) :
    Prop :=
  Located e.grammar.symbols e.grammar.rules (spelled c.frames) tokens c.parser.builder.2
    (c.frames.reverse.map (·.child)) (c.frames.reverse.map (·.span))

namespace LocatedStack

/-- What a reduction takes off the stack has the place that is given to the builder. -/
theorem cut (h : LocatedStack e tokens c) (hinorder : InOrder tokens) {rule : Rule}
    (hsymbols : (popped c rule).map (·.symbol) = rule.rhs) (hne : rule.rhs ≠ []) (t : Token) :
    ∃ before top earlier calls, tokens = before ++ top ∧
      c.parser.builder.2 = earlier ++ calls ∧
      Located e.grammar.symbols e.grammar.rules (spelled (below c rule)) before earlier
        ((below c rule).reverse.map (·.child)) ((below c rule).reverse.map (·.span)) ∧
      Located e.grammar.symbols e.grammar.rules rule.rhs top calls
        ((popped c rule).map (·.child)) ((popped c rule).map (·.span)) ∧
      Extent top ((popped c rule).map (·.span)) (spanOf (popped c rule) t) := by
  unfold LocatedStack at h
  rw [spelled_of_popped hsymbols, map_frames_eq (·.child) c rule,
    map_frames_eq (·.span) c rule] at h
  obtain ⟨before, top, earlier, calls, children₁, children₂, places₁, places₂, rfl, hcalls,
    hchildren, hplaces, hleft, hright⟩ := h.split
  have hlength : (popped c rule).length = rule.rhs.length := by
    rw [← hsymbols, List.length_map]
  obtain ⟨rfl, rfl⟩ := List.append_inj' hchildren
    (by rw [List.length_map, hlength, hright.length_eq.1])
  obtain ⟨rfl, rfl⟩ := List.append_inj' hplaces
    (by rw [List.length_map, hlength, hright.length_eq.2])
  obtain ⟨place, hjoin, hextent⟩ := hright.extent hinorder.right hne
  have hspan : spanOf (popped c rule) t = place := by rw [spanOf, hjoin, Option.getD_some]
  exact ⟨before, top, earlier, calls, rfl, hcalls, hleft, hright, hspan ▸ hextent⟩

theorem advance (h : LocatedStack e tokens c) (hadvance : Advance e.recorded c c')
    (hinorder : InOrder tokens) (hrules : ∀ rule ∈ e.grammar.rules, rule.rhs ≠ []) :
    LocatedStack e (tokens ++ shiftedBy c c') c' := by
  cases hadvance with
  | fetched hahead =>
    rw [shiftedBy_of_none hahead, List.append_nil]
    exact h
  | @shifted t s next stats hahead ht =>
    have hleaf : Located e.grammar.symbols e.grammar.rules [s] [t] [] [Child.token (ν := ν) t]
        [t.span] := .token ht .nil
    rw [shiftedBy_of_some hahead rfl]
    simpa [LocatedStack] using Located.append h hleaf
  | @reduced t s rule n next builder stats hahead ht hmem hle hsymbols _ _ hcall =>
    obtain ⟨before, top, earlier, calls, rfl, hcalls, hleft, hright, hextent⟩ :=
      h.cut hinorder hsymbols (hrules rule hmem) t
    have hnode := hleft.append (.node (n := n) hmem hright hextent .nil)
    rw [shiftedBy_of_kept rfl, List.append_nil, LocatedStack, recorded_call hcall, hcalls]
    simpa using hnode

end LocatedStack

theorem located_of_steps (hready : e.grammar.Ready start)
    (hrules : ∀ rule ∈ e.grammar.rules, rule.rhs ≠ []) {p : Parser σ β} {text : String}
    (h : Steps e.recorded (e.recorded.start p.recorded text) tokens c) (hinorder : InOrder tokens) :
    LocatedStack e tokens c := by
  induction h with
  | refl => exact Located.nil
  | step hsteps hstep ih =>
    have hready' : e.recorded.grammar.Ready start := hready
    have hstands := hready'.stands hsteps rfl
    exact (ih hinorder.left).advance (hready'.advance hstands hstep) hinorder.left hrules

/-! Calls. -/

def Progress.parser : Progress σ β ν → Parser σ β
  | .more c => c.parser
  | .done _ p => p

theorem parser_answered {e : Engine σ β ν} {c : Config σ β ν} (t : Token) (rule : Rule)
    (answer : Except ParseError (Option ν)) (builder : β) :
    (e.answered c t rule (answer, builder)).parser.builder = builder := by
  cases answer with
  | error err => rfl
  | ok n =>
    cases n with
    | none => rfl
    | some n =>
      rw [answered, push]
      split <;> rfl

/-- A step calls the builder once at most, and then it reduces by a rule. -/
theorem calls_of_step (e : Engine σ β ν) (c : Config σ (β × List (Call ν)) ν) :
    (e.recorded.step c).parser.builder.2 = c.parser.builder.2 ∨
      ∃ t s i rule answer, (e.grammar.state (topState c.frames)).reduce? s = some i ∧ i ≠ 0 ∧
        e.grammar.rules[i]? = some rule ∧ (e.recorded.step c).parser.builder.2 =
          c.parser.builder.2 ++ [⟨rule.lhs, rule, (popped c rule).map (·.child),
            spanOf (popped c rule) t, answer⟩] := by
  have heffect := e.recorded.step_effect c
  generalize e.recorded.step c = progress at heffect
  cases heffect with
  | broken | fetched | unknown | stuck | shifted | lost => exact Or.inl rfl
  | accepted =>
    refine Or.inl ?_
    unfold accept
    split <;> rfl
  | @reduced t s i rule hahead _ _ hreduce hi hrule =>
    by_cases hle : rule.rhs.length ≤ c.frames.length
    · have hcall : e.recorded.call c t rule = ((e.call c.plain t rule).1, (e.call c.plain t rule).2,
        c.parser.builder.2 ++ [⟨rule.lhs, rule, (popped c rule).map (·.child),
          spanOf (popped c rule) t, (e.call c.plain t rule).1⟩]) := rfl
      rw [reduce_eq hle, hcall, parser_answered]
      exact Or.inr ⟨t, s, i, rule, _, hreduce, hi, hrule, rfl⟩
    · rw [reduce_of_lt (Nat.not_le.mp hle)]
      exact Or.inl rfl

theorem answered_of_steps (hready : e.grammar.Ready start) {p : Parser σ β} {text : String}
    (h : Steps e.recorded (e.recorded.start p.recorded text) tokens c) :
    ∀ call ∈ c.parser.builder.2, ∃ state, (e.builder.apply state call.lhs call.rule call.children
      call.span).1 = call.answer := by
  induction h with
  | refl => exact List.forall_mem_nil _
  | @step tokens c c' hsteps hstep ih =>
    have hready' : e.recorded.grammar.Ready start := hready
    cases hready'.advance (hready'.stands hsteps rfl) hstep with
    | fetched | shifted => exact ih
    | @reduced t s rule n next builder stats _ _ _ _ _ _ _ hcall =>
      have hanswer : (e.builder.apply c.parser.builder.1 rule.lhs rule
          ((popped c rule).map (·.child)) (spanOf (popped c rule) t)).1 = .ok (some n) :=
        congrArg Prod.fst hcall
      rw [recorded_call hcall]
      exact List.forall_mem_append.mpr ⟨ih, List.forall_mem_singleton.mpr ⟨_, hanswer⟩⟩

theorem rhs_ne_nil {g g' : Grammar} (hg : g.Built) (h : g.configure = (.ok (), g'))
    (hclients : ∀ rule ∈ g.clients, rule.rhs ≠ []) : ∀ rule ∈ g'.rules, rule.rhs ≠ [] := by
  obtain ⟨⟨start, hv⟩, -, hrules, -⟩ := Grammar.configure_ok h
  rw [hrules, hg.wellFormed.rules_eq hv]
  exact List.forall_mem_cons.mpr ⟨List.cons_ne_nil _ _, hclients⟩

/-- After the calls before, a call is given the extent of some of the tokens, which its rule
derives, and of the places of its children. -/
def Call.Spans (e : Engine σ β ν) (tokens : List Token) (before : List (Call ν)) (call : Call ν) :
    Prop :=
  call.rule ∈ e.grammar.rules ∧ call.lhs = call.rule.lhs ∧
    ∃ front top behind earlier below places, tokens = front ++ top ++ behind ∧
      before = earlier ++ below ∧
      Located e.grammar.symbols e.grammar.rules call.rule.rhs top below call.children places ∧
      Extent top places call.span

theorem Call.Spans.append {before : List (Call ν)} {call : Call ν} (h : call.Spans e tokens before)
    (more : List Token) : call.Spans e (tokens ++ more) before := by
  obtain ⟨hmem, hlhs, front, top, behind, earlier, below, places, rfl, hbefore, hlocated, hextent⟩ := h
  exact ⟨hmem, hlhs, front, top, behind ++ more, earlier, below, places, List.append_assoc _ _ _,
    hbefore, hlocated, hextent⟩

section Runs

variable (hready : e.grammar.Ready start) (hrules : ∀ rule ∈ e.grammar.rules, rule.rhs ≠ [])
  {p : Parser σ β} {text : String} {before after : List (Call ν)} {call : Call ν}
include hready hrules

/-- With the calls so far, the call of a step spans its tokens too. -/
theorem spans_of_step
    (h : Steps e.recorded (e.recorded.start p.recorded text) tokens c) (hinorder : InOrder tokens)
    (hbefore : ∀ before call after,
      c.parser.builder.2 = before ++ call :: after → call.Spans e tokens before)
    (hcalls : (e.recorded.step c).parser.builder.2 = before ++ call :: after) :
    call.Spans e tokens before := by
  rcases calls_of_step e c with hsame | ⟨t, s, i, rule, answer, hreduce, hi, hrule, hnew⟩
  · exact hbefore before call after (hsame.symm.trans hcalls)
  · rw [hnew] at hcalls
    -- the last call is that of this step; every other one was there before
    rcases List.eq_nil_or_concat after with rfl | ⟨after, last, rfl⟩
    · obtain ⟨rfl, hcall⟩ := List.append_inj' hcalls rfl
      obtain rfl := List.singleton_inj.mp hcall
      have hready' : e.recorded.grammar.Ready start := hready
      obtain ⟨rule', next, hrule', -, hsymbols, -⟩ :=
        hready'.reduction (hready'.stands h rfl) hreduce hi
      obtain rfl := Option.some.inj (hrule.symm.trans hrule')
      have hmem := List.mem_of_getElem? hrule
      obtain ⟨front, top, earlier, below, htokens, hbelow, -, hright, hextent⟩ :=
        (located_of_steps hready hrules h hinorder).cut hinorder hsymbols (hrules _ hmem) t
      exact ⟨hmem, rfl, front, top, [], earlier, below, _, by rw [htokens, List.append_nil], hbelow,
        hright, hextent⟩
    · rw [List.concat_eq_append, ← List.cons_append, ← List.append_assoc] at hcalls
      obtain ⟨hcalls, -⟩ := List.append_inj' hcalls rfl
      exact hbefore before call after hcalls

theorem spans_of_calls
    (h : Steps e.recorded (e.recorded.start p.recorded text) tokens c) (hinorder : InOrder tokens) :
    ∀ before call after, c.parser.builder.2 = before ++ call :: after →
      call.Spans e tokens before := by
  induction h with
  | refl =>
    intro before call after hcalls
    cases List.append_ne_nil_of_right_ne_nil before (List.cons_ne_nil call after) hcalls.symm
  | @step tokens c c' hsteps hstep ih =>
    intro before call after hcalls
    have hlog : (e.recorded.step c).parser.builder.2 = before ++ call :: after := by
      rw [hstep]
      exact hcalls
    exact (spans_of_step hready hrules hsteps hinorder.left (ih hinorder.left) hlog).append _

/-- Every call in a run spans its tokens, whichever way the last step ends. -/
theorem spans_of_run
    (h : Steps e.recorded (e.recorded.start p.recorded text) tokens c) (hinorder : InOrder tokens)
    (hcalls : (e.recorded.step c).parser.builder.2 = before ++ call :: after) :
    call.Spans e tokens before :=
  spans_of_step hready hrules h hinorder (spans_of_calls hready hrules h hinorder) hcalls

end Runs

end CanonicalLR

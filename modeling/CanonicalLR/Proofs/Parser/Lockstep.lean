import CanonicalLR.Parser.Machine
import CanonicalLR.Proofs.Parser.Steps
import CanonicalLR.Proofs.Table.Reached

/-! A machine on its arrays beside the parser on its stack of frames. Where the states and symbols
are those of a grammar, every turn comes to what the step comes to. -/

namespace CanonicalLR

theorem exists_mapM_of_forall {α γ : Type} {f : α → Option γ} {xs : List α}
    (h : ∀ x ∈ xs, ∃ y, f x = some y) : ∃ ys, xs.mapM f = some ys := by
  induction xs with
  | nil => exact ⟨[], rfl⟩
  | cons x xs ih =>
    obtain ⟨y, hy⟩ := h x List.mem_cons_self
    obtain ⟨ys, hys⟩ := ih fun x hx => h x (List.mem_cons_of_mem _ hx)
    exact ⟨y :: ys, by simp [List.mapM_cons, hy, hys]⟩

theorem Registry.exists_get? {r : Registry} {s : SymbolId} (h : r.Registered s) :
    ∃ sym, r.get? s = some sym :=
  ⟨_, List.getElem?_eq_getElem h⟩

theorem Registry.terminalNames_of_mapM {r : Registry} {ids : List SymbolId}
    {symbols : List Symbol} (h : ids.mapM r.get? = some symbols) :
    (symbols.filter (·.isTerminal)).map (·.name) = (ids.filter r.isTerminal).map r.name := by
  induction ids generalizing symbols with
  | nil =>
    obtain rfl : symbols = [] := by simpa using h.symm
    rfl
  | cons s ids ih =>
    simp only [List.mapM_cons, Option.bind_eq_bind, Option.bind_eq_some_iff, Option.pure_def,
      Option.some.injEq] at h
    obtain ⟨sym, hs, rest, hrest, rfl⟩ := h
    have hterminal : r.isTerminal s = sym.isTerminal := by simp [isTerminal, hs]
    have hname : r.name s = sym.name := by simp [name, hs]
    by_cases ht : sym.isTerminal = true
    · simp [ht, hterminal, hname, ih hrest]
    · simp [ht, hterminal, ih hrest]

theorem Grammar.getElem?_states {g : Grammar} {state : Nat} (h : state < g.states.length) :
    g.states[state]? = some (g.state state) := by
  simp [Grammar.state, List.getD_eq_getElem?_getD, h]

/-- The keys of a regular state are registered, so their names can be looked up. -/
theorem Grammar.Regular.expected?_eq {g : Grammar} (h : g.Regular) {state : Nat}
    (hstate : state < g.states.length) : g.expected? state =
      some (g.symbols.namesText ", " ((g.state state).expected g.symbols)) := by
  have hget := getElem?_states hstate
  obtain ⟨-, -, hshift, hreduce⟩ := h _ (List.mem_of_getElem? hget)
  have hkeys : ∀ s ∈ (SymbolSet.ofList
      ((g.state state).shifts.keys ++ (g.state state).reduces.keys)).toList,
      ∃ sym, g.symbols.get? s = some sym := by
    intro s hs
    refine Registry.exists_get? ?_
    simp only [SymbolSet.mem_toList, SymbolSet.contains_ofList, decide_eq_true_eq,
      List.mem_append, SymbolMap.mem_keys] at hs
    rcases hs with ⟨k, hk⟩ | ⟨i, hi⟩
    · exact (hshift s k hk).1
    · exact (hreduce s i hi).1
  obtain ⟨symbols, hsymbols⟩ := exists_mapM_of_forall hkeys
  simp only [expected?, hget, Option.bind_eq_bind, Option.bind_some, hsymbols]
  rw [Registry.terminalNames_of_mapM hsymbols]
  rfl

/-! The arrays of a stack of frames. -/

section Arrays

variable {ν : Type} {frames : List (Frame ν)} {k : Nat}

def Frame.entry (f : Frame ν) : Entry ν := ⟨f.symbol, f.child, f.span⟩

def statesOf (frames : List (Frame ν)) : List Nat := 0 :: frames.reverse.map (·.state)

def entriesOf (frames : List (Frame ν)) : List (Entry ν) := frames.reverse.map (·.entry)

@[simp] theorem length_statesOf : (statesOf frames).length = frames.length + 1 := by
  simp [statesOf]

@[simp] theorem length_entriesOf : (entriesOf frames).length = frames.length := by
  simp [entriesOf]

theorem statesOf_cons (f : Frame ν) : statesOf (f :: frames) = statesOf frames ++ [f.state] := by
  simp [statesOf]

theorem entriesOf_cons (f : Frame ν) : entriesOf (f :: frames) = entriesOf frames ++ [f.entry] := by
  simp [entriesOf]

theorem getElem?_statesOf : (statesOf frames)[frames.length]? = some (topState frames) := by
  cases frames with
  | nil => rfl
  | cons f frames =>
    rw [statesOf_cons, List.length_cons, ← length_statesOf, List.getElem?_concat_length]
    rfl

theorem take_statesOf (hk : k ≤ frames.length) :
    (statesOf frames).take (frames.length - k + 1) = statesOf (frames.drop k) := by
  simp [statesOf, List.take_reverse, ← List.map_drop, Nat.sub_sub_self hk]

theorem take_entriesOf (hk : k ≤ frames.length) :
    (entriesOf frames).take (frames.length - k) = entriesOf (frames.drop k) := by
  simp [entriesOf, List.take_reverse, ← List.map_drop, Nat.sub_sub_self hk]

theorem drop_entriesOf (hk : k ≤ frames.length) :
    (entriesOf frames).drop (frames.length - k) = (frames.take k).reverse.map (·.entry) := by
  simp [entriesOf, List.drop_reverse, ← List.map_take, Nat.sub_sub_self hk]

end Arrays

def Config.machine {σ β ν : Type} (c : Config σ β ν) : Machine σ β ν :=
  ⟨statesOf c.frames, entriesOf c.frames, c.ahead, c.parser⟩

namespace Engine

variable {σ β ν : Type} {e : Engine σ β ν} {m m' : Machine σ β ν} {c c' : Config σ β ν} {t : Token}

theorem refuse?_eq (h : e.grammar.Regular) {state : Nat} (hstate : state < e.grammar.states.length)
    (m : Machine σ β ν) (t : Token) :
    e.refuse? m state t = some (.done (.error (e.refuse state t)) m) := by
  rw [refuse?, Grammar.refusal?, refuse]
  split
  · rfl
  · rw [h.expected?_eq hstate]
    rfl

/-- The states and symbols on the stack are those of the grammar. -/
structure InRange (e : Engine σ β ν) (c : Config σ β ν) : Prop where
  states : e.grammar.states ≠ []
  frame : ∀ f ∈ c.frames, f.state < e.grammar.states.length ∧ e.grammar.symbols.Registered f.symbol

theorem InRange.of_subset (h : e.InRange c) (hsub : c'.frames ⊆ c.frames) : e.InRange c' :=
  ⟨h.states, fun f hf => h.frame f (hsub hf)⟩

theorem InRange.topState (h : e.InRange c) : topState c.frames < e.grammar.states.length := by
  cases hframes : c.frames with
  | nil => exact List.length_pos_iff.mpr h.states
  | cons f frames => exact (h.frame f (by simp [hframes])).1

theorem shift?_inRange (h : e.grammar.Regular) {state next : Nat} {s : SymbolId}
    (hstate : state < e.grammar.states.length)
    (hnext : (e.grammar.state state).shift? s = some next) :
    next < e.grammar.states.length ∧ e.grammar.symbols.Registered s :=
  let hregular := h _ (List.mem_of_getElem? (Grammar.getElem?_states hstate))
  (hregular.shift s next hnext).symm

theorem exists_rule (h : e.grammar.Reached) {state i : Nat} {s : SymbolId}
    (hstate : state < e.grammar.states.length)
    (hreduce : (e.grammar.state state).reduce? s = some i) :
    ∃ rule, e.grammar.rules[i]? = some rule ∧
      ∃ symbols, (rule.lhs :: rule.rhs).mapM e.grammar.symbols.get? = some symbols := by
  have hregular := h.regular _ (List.mem_of_getElem? (Grammar.getElem?_states hstate))
  have hi := (hregular.reduce s i hreduce).2
  refine ⟨_, List.getElem?_eq_getElem hi, exists_mapM_of_forall fun t ht => ?_⟩
  exact Registry.exists_get? (h.registered _ (List.getElem_mem hi) t (List.mem_cons.mp ht))

theorem InRange.push (h : e.InRange c) (hg : e.grammar.Regular) {s : SymbolId} {next : Nat}
    (hnext : (e.grammar.state (CanonicalLR.topState c.frames)).shift? s = some next)
    (child : Child ν) (span : Span) {ahead : Option Token} {p : Parser σ β} :
    e.InRange ⟨⟨s, child, span, next⟩ :: c.frames, ahead, p⟩ where
  states := h.states
  frame := by
    intro f hf
    rcases List.mem_cons.mp hf with rfl | hf
    · exact shift?_inRange hg h.topState hnext
    · exact h.frame f hf

theorem InRange.step (h : e.InRange c) (hg : e.grammar.Regular) (hmore : e.step c = .more c') :
    e.InRange c' := by
  cases follows_of_more hmore with
  | fetched => exact h.of_subset fun _ hf => hf
  | shifted _ _ hnext => exact h.push hg hnext _ _
  | @reduced _ _ _ rule _ _ _ _ _ _ _ _ _ _ _ _ hnext =>
    have hbelow : e.InRange ⟨below c rule, none, c.parser⟩ := h.of_subset (List.drop_subset _ _)
    exact hbelow.push hg hnext _ _

/-! The machine on the arrays of a configuration. -/

theorem machine_top? (c : Config σ β ν) : c.machine.top? = some (topState c.frames) := by
  rw [Machine.top?, Config.machine, length_statesOf]
  exact getElem?_statesOf

variable {rule : Rule}

theorem machine_popped (hlen : rule.rhs.length ≤ c.frames.length) :
    c.machine.popped rule = (popped c rule).map (·.entry) := by
  rw [Machine.popped, Machine.base, Config.machine, length_entriesOf, drop_entriesOf hlen]
  rfl

theorem machine_span (hlen : rule.rhs.length ≤ c.frames.length) (t : Token) :
    c.machine.span rule t = spanOf (popped c rule) t := by
  rw [Machine.span, machine_popped hlen, List.map_map]
  rfl

theorem machine_call (hlen : rule.rhs.length ≤ c.frames.length) (t : Token) :
    c.machine.call e.builder rule t = e.call c t rule := by
  rw [Machine.call, machine_popped hlen, List.map_map, machine_span hlen]
  rfl

theorem machine_cut (hlen : rule.rhs.length ≤ c.frames.length) (builder : β) :
    c.machine.cut rule builder =
      Config.machine ⟨below c rule, c.ahead, { c.parser with builder }⟩ := by
  rw [Machine.cut, Machine.base, Config.machine, length_entriesOf, take_statesOf hlen,
    take_entriesOf hlen]
  rfl

theorem machine_push (c : Config σ β ν) (s : SymbolId) (n : ν) (span : Span) (next : Nat) :
    c.machine.push s n span next = Config.machine ⟨⟨s, .node n, span, next⟩ :: c.frames, c.ahead,
      { c.parser with
        stats := { c.parser.stats with reductions := c.parser.stats.reductions + 1 } }⟩ := by
  rw [Machine.push, Config.machine, Config.machine, statesOf_cons, entriesOf_cons]
  rfl

theorem machine_shift (c : Config σ β ν) (t : Token) (s : SymbolId) (next : Nat) :
    c.machine.shift t s next = (shift c t s next).machine := by
  rw [Machine.shift, Config.machine, Config.machine, shift, statesOf_cons, entriesOf_cons]
  rfl

theorem machine_exposed (hlen : rule.rhs.length ≤ c.frames.length) (builder : β) :
    (c.machine.cut rule builder).states[c.machine.base rule]? = some (topState (below c rule)) := by
  have hbase : c.machine.base rule = (below c rule).length := by
    rw [Machine.base, Config.machine, length_entriesOf, below, List.length_drop]
  rw [machine_cut hlen, hbase]
  exact getElem?_statesOf

/-! Turn by turn. -/

/-- What a turn comes to beside a step. -/
inductive Lockstep : Progress σ β ν → Turn σ β ν → Prop where
  | more {c : Config σ β ν} {m : Machine σ β ν} : m = c.machine → Lockstep (.more c) (.more m)
  | done {result : Except ParseError ν} {p : Parser σ β} {m : Machine σ β ν} : m.parser = p →
      Lockstep (.done result p) (.done result m)

theorem lockstep_reduce (h : e.InRange c) (hg : e.grammar.Regular) (ht : c.ahead = some t) :
    ∃ turn, e.reduce? c.machine (topState c.frames) t rule = some turn ∧
      Lockstep (e.reduce c t rule) turn := by
  by_cases hlen : rule.rhs.length ≤ c.frames.length
  · have hnot : ¬ c.machine.entries.length < rule.rhs.length := by simpa [Config.machine] using hlen
    rw [reduce_eq hlen, reduce?, if_neg hnot, machine_call hlen]
    rcases e.call c t rule with ⟨_ | _ | n, builder⟩
    · exact ⟨_, rfl, .done rfl⟩
    · rw [machine_span hlen]
      exact ⟨_, rfl, .done rfl⟩
    · have hbelow : e.InRange ⟨below c rule, c.ahead, { c.parser with builder }⟩ :=
        h.of_subset (List.drop_subset _ _)
      have hexposed := hbelow.topState
      dsimp only at hexposed ⊢
      rw [machine_exposed hlen, answered, push]
      simp only [Option.bind_eq_bind, Option.bind_some, Grammar.getElem?_states hexposed]
      cases (e.grammar.state (topState (below c rule))).shift? rule.lhs with
      | none => exact ⟨_, refuse?_eq hg hexposed _ t, .done rfl⟩
      | some next =>
        dsimp only
        rw [machine_cut hlen, machine_push, machine_span hlen]
        exact ⟨_, rfl, .more (by rw [ht])⟩
  · have hlt : c.machine.entries.length < rule.rhs.length := by simpa [Config.machine] using hlen
    rw [reduce?, if_pos hlt, reduce_of_lt (Nat.not_le.mp hlen)]
    exact ⟨_, refuse?_eq hg h.topState _ t, .done rfl⟩

theorem accept?_cases (e : Engine σ β ν) (c : Config σ β ν) (t : Token) :
    (∃ n left, c.machine.entries.map (·.child) = [.node n] ∧ left.parser = c.parser ∧
      e.accept? c.machine (topState c.frames) t = some (.done (.ok n) left) ∧
      e.accept c t = .done (.ok n) c.parser) ∨
    ∃ left, left.parser = c.parser ∧
      e.accept? c.machine (topState c.frames) t = e.refuse? left (topState c.frames) t ∧
      e.accept c t = .done (.error (e.refuse (topState c.frames) t)) c.parser := by
  rcases c with ⟨frames, ahead, p⟩
  rcases frames with _ | ⟨⟨s, child, span, state⟩, frames⟩
  · exact Or.inr ⟨_, rfl, rfl, rfl⟩
  · simp only [accept?, Config.machine, entriesOf_cons, List.getLast?_concat, List.dropLast_concat]
    cases child with
    | token t' => exact Or.inr ⟨_, rfl, rfl, rfl⟩
    | node n =>
      cases frames with
      | nil => exact Or.inl ⟨n, _, rfl, rfl, rfl, rfl⟩
      | cons f frames =>
        refine Or.inr ⟨_, rfl, if_neg ?_, rfl⟩
        simp [entriesOf_cons]

theorem lockstep_accept (h : e.InRange c) (hg : e.grammar.Regular) (t : Token) :
    ∃ turn, e.accept? c.machine (topState c.frames) t = some turn ∧
      Lockstep (e.accept c t) turn := by
  rcases e.accept?_cases c t with ⟨n, left, -, hleft, hturn, hstep⟩ | ⟨left, hleft, hturn, hstep⟩
  · rw [hturn, hstep]
    exact ⟨_, rfl, .done hleft⟩
  · rw [hturn, hstep]
    exact ⟨_, refuse?_eq hg h.topState left t, .done hleft⟩

theorem lockstep_fetch (e : Engine σ β ν) (c : Config σ β ν) :
    Lockstep (e.fetch c) (e.fetchTurn c.machine) := by
  rcases hn : e.source.next c.parser.source with ⟨result, source⟩
  have hn' : e.source.next c.machine.parser.source = (result, source) := hn
  cases result with
  | error err =>
    simp only [fetch, fetchTurn, hn, hn']
    exact .done rfl
  | ok t =>
    simp only [fetch, fetchTurn, hn, hn']
    exact .more rfl

theorem exists_names (h : e.InRange c) : ∃ names,
    (c.machine.entries.mapM fun entry => e.grammar.symbols.get? entry.symbol) = some names := by
  refine exists_mapM_of_forall fun entry hentry => ?_
  obtain ⟨f, hf, rfl⟩ := List.mem_map.mp hentry
  exact Registry.exists_get? (h.frame f (List.mem_reverse.mp hf)).2

/-- Every turn takes place, and comes to what the step comes to. -/
theorem lockstep (h : e.InRange c) (hg : e.grammar.Reached) :
    ∃ turn, e.turn? c.machine = some turn ∧ Lockstep (e.step c) turn := by
  have hregular := hg.regular
  unfold turn? step
  cases ht : c.ahead with
  | none =>
    have hm : c.machine.ahead = none := ht
    rw [hm]
    exact ⟨_, rfl, lockstep_fetch e c⟩
  | some t =>
    have hm : c.machine.ahead = some t := ht
    obtain ⟨names, hnames⟩ := exists_names h
    have hrefuse := refuse?_eq hregular h.topState c.machine t
    rw [hm]
    simp only [hnames, machine_top?, Option.bind_eq_bind, Option.bind_some, act]
    cases hs : e.grammar.symbols.byType? t.type with
    | none => exact ⟨_, hrefuse, .done rfl⟩
    | some s =>
      simp only [Grammar.getElem?_states h.topState, Option.bind_some]
      cases hshift : (e.grammar.state (topState c.frames)).shift? s with
      | some next => exact ⟨_, rfl, .more (machine_shift c t s next)⟩
      | none =>
        cases hreduce : (e.grammar.state (topState c.frames)).reduce? s with
        | none => exact ⟨_, hrefuse, .done rfl⟩
        | some i =>
          cases i with
          | zero => exact lockstep_accept h hregular t
          | succ i =>
            obtain ⟨rule, hrule, symbols, hsymbols⟩ := exists_rule hg h.topState hreduce
            simp only [hrule, Option.bind_some, hsymbols]
            exact lockstep_reduce h hregular ht

/-- No run is out of range, and each ends as the parser's does. -/
theorem turns_answer? (h : e.InRange c) (hg : e.grammar.Reached) (fuel : Nat) :
    (e.turns fuel c.machine).answer? = some (e.run fuel c) := by
  induction fuel generalizing c with
  | zero => rfl
  | succ fuel ih =>
    obtain ⟨turn, hturn, hlock⟩ := lockstep h hg
    rw [turns, run, hturn]
    generalize hstep : e.step c = progress at hlock
    cases hlock with
    | more hm =>
      rw [hm]
      exact ih (h.step hg.regular hstep)
    | done hp =>
      rw [← hp]
      rfl

theorem inRange_start (hconf : e.grammar.isConfigured = true) (p : Parser σ β) (text : String) :
    e.InRange (e.start p text) where
  states := by simpa [Grammar.isConfigured] using hconf
  frame := by simp [start]

theorem parseOn_answer? (hg : e.grammar.Reached) (fuel : Nat) (left : Machine σ β ν) (text : String) :
    (e.parseOn fuel left text).answer? = some (e.parse fuel left.parser text) := by
  unfold parseOn parse
  split
  · rename_i hconf
    exact turns_answer? (inRange_start hconf left.parser text) hg fuel
  · rfl

end Engine

end CanonicalLR

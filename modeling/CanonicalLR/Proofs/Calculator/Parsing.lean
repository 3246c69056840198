import CanonicalLR.Calculator.Basic
import CanonicalLR.Proofs.Calculator.Openings
import CanonicalLR.Proofs.Parser.Exactness
import CanonicalLR.Proofs.Scanner.Tokens

/-! Parsers of the calculator read as precedence climbing does. What the reader would make of the
stack and the tokens to come stays the same with every step, and when a parser ends it has made just
this of them. -/

namespace CanonicalLR.Calculator

open Vocabulary Grammar Engine Collection

variable {p : Int} {state : State} {st : Stack} {s : SymbolId} {i k : Nat} {ts : List Token}

/-! What a state does with a stack. -/

theorem extends_of_verdict {f : Form} {level : Int} {o : Operator} (h : f.level? p = some level) :
    (o.extends (some level) ↔ (rawGrammar p).verdict (Mark.op o).symbol (f.placed p) = .shift) ∧
      (¬ o.extends (some level) ↔
        (rawGrammar p).verdict (Mark.op o).symbol (f.placed p) = .reduce) := by
  rw [verdict_eq h]
  split <;> simp_all

/-- Where no level is pending, no rule is complete behind an expression but the first one. -/
theorem complete?_of_pending_eq_none {cs : List Context} {e : Expr}
    (h : Context.pending p cs = none) (hcomplete : (Stack.place ⟨cs, .expr e⟩).complete? = some i) :
    i = 0 := by
  rcases cs with _ | ⟨c, cs⟩
  · exact (Option.some.inj hcomplete).symm
  · cases c with
    | operator => cases h
    | minus => cases h
    | _ => cases hcomplete

section Cell

variable (hcell : Cell (rawGrammar p) state st.path s)
include hcell

/-- A token that is shifted goes where the reader goes on with it. -/
theorem Stack.shift_of_cell {m : Mark} (t : Of m) (hs : s = m.symbol)
    (hshift : state.shift? s = some k) :
    ∃ st' : Stack, st'.parts = .token t :: st.parts ∧
      ∀ ts, st'.read p ts = st.read p (t.1 :: ts) := by
  cases hcell with
  | shift _ hcan hverdict =>
    have hgoto := (rawGrammar_ruled p).goto_of_canShift hcan
    rw [after_path, hs] at hgoto
    refine Stack.exists_shift t hgoto fun e o htop hm => ?_
    cases hpending : Context.pending p st.contexts with
    | none => trivial
    | some level =>
      have hfollow : s ∈ follow st.contexts := by
        rw [hs, hm]
        exact mem_follow_op o
      obtain ⟨f, hlevel, hreduce⟩ := (rawGrammar_ruled p).exists_canReduce hpending e hfollow
      have hpath : st.path = Stack.path ⟨st.contexts, .expr e⟩ := by rw [← htop]
      have hshift := hverdict f.id _ (hpath ▸ hreduce) ((rawGrammar_ruled p).placed f)
      rw [hs, hm] at hshift
      exact (extends_of_verdict hlevel).1.mpr hshift
  | reduce hno => simp [hno] at hshift
  | stuck hno => simp [hno] at hshift

theorem Stack.stops_of_cell (hshift : state.shift? s = none) (hreduce : state.reduce? s = some i)
    (hahead : aheadOf ts = some s) {e : Expr} (htop : st.top = .expr e) :
    Stops (Context.pending p st.contexts) ts := by
  rintro t rest o rfl ht
  obtain rfl : (Mark.op o).symbol = s := by simpa [aheadOf, ht] using hahead
  have hpath : st.path = Stack.path ⟨st.contexts, .expr e⟩ := by rw [← htop]
  have hcan := (rawGrammar_ruled p).canShift_operator st.contexts e o
  rw [← hpath] at hcan
  cases hcell with
  | shift hsome => simp [hsome] at hshift
  | @reduce i rule _ _ hcanReduce hrule hverdict =>
    have hverdict := hverdict hcan
    cases hpending : Context.pending p st.contexts with
    | none =>
      have hcomplete := (rawGrammar_ruled p).complete?_of_canReduce hcanReduce
      rw [hpath, after_path] at hcomplete
      obtain rfl := complete?_of_pending_eq_none hpending hcomplete
      obtain ⟨-, f, -, hid, -⟩ := (rawGrammar_ruled p).exists_operator hcan hcanReduce
      cases f <;> cases hid
    | some level =>
      obtain ⟨f, hlevel, hreduce⟩ :=
        (rawGrammar_ruled p).exists_canReduce hpending e (mem_follow_op o)
      rw [← hpath] at hreduce
      obtain rfl := (rawGrammar_resolved p).unrivalled _ _ _ _ hcanReduce hreduce
      rw [(rawGrammar_ruled p).placed, Option.some.injEq] at hrule
      rw [← hrule] at hverdict
      exact (extends_of_verdict hlevel).2.mpr hverdict
  | stuck _ hno => simp [hno] at hreduce

theorem Stack.canReduce_of_cell (hshift : state.shift? s = none)
    (hreduce : state.reduce? s = some i) : CanReduce (rawGrammar p).analysis st.path i s := by
  cases hcell with
  | shift hsome => simp [hsome] at hshift
  | reduce _ hsome hcan =>
    obtain rfl := Option.some.inj (hsome.symm.trans hreduce)
    exact hcan
  | stuck _ hno => simp [hno] at hreduce

theorem Stack.reduce_of_cell (hshift : state.shift? s = none) (hreduce : state.reduce? s = some i)
    (hi : i ≠ 0) (hahead : aheadOf ts = some s) :
    ∃ (f : Form) (rhs below : List Part) (next : Expr → Stack), i = f.id ∧
      st.parts = rhs.reverse ++ below ∧ rhs.length = f.sides.2.length ∧
      (∀ e, (next e).parts = ⟨f.sides.1, .node e, e.span⟩ :: below) ∧
      ∀ k, st.read p ts = (built k f rhs).toOption.bind fun e => (next e).read p ts := by
  have hcan := Stack.canReduce_of_cell hcell hshift hreduce
  have hcomplete := (rawGrammar_ruled p).complete?_of_canReduce hcan
  rw [after_path] at hcomplete
  exact Stack.exists_reduce hcomplete hi hahead
    ((rawGrammar_ruled p).mem_items_of_canReduce hcan).2
    fun _ htop => Stack.stops_of_cell hcell hshift hreduce hahead htop

theorem Stack.accept_of_cell (hshift : state.shift? s = none) (hreduce : state.reduce? s = some 0)
    (hahead : aheadOf ts = some s) : ∃ e, st = ⟨[], .expr e⟩ ∧ st.read p ts = some e := by
  have hcan := Stack.canReduce_of_cell hcell hshift hreduce
  have hcomplete := (rawGrammar_ruled p).complete?_of_canReduce hcan
  rw [after_path] at hcomplete
  obtain rfl : s = .finish :=
    List.mem_singleton.mp ((rawGrammar_ruled p).mem_items_of_canReduce hcan).2
  obtain rfl : ts = [] := by
    cases ts with
    | nil => rfl
    | cons t ts =>
      obtain ⟨m, -, hm⟩ := Option.map_eq_some_iff.mp hahead
      exact absurd hm (by cases m with | op o => cases o <;> decide | _ => decide)
  obtain ⟨cs, top⟩ := st
  cases top with
  | expr e =>
    rcases cs with _ | ⟨c, cs⟩
    · exact ⟨e, rfl, resume_nil⟩
    · cases c with
      | operator o => cases o <;> cases hcomplete
      | _ => cases hcomplete
  | none => exact absurd hcomplete (by simp [Stack.place, Top.place, complete?_operand])
  | _ => cases hcomplete

theorem Stack.read_of_stuck (hshift : state.shift? s = none) (hreduce : state.reduce? s = none)
    (hahead : aheadOf ts = some s) : st.read p ts = none := by
  by_contra hread
  obtain ⟨s', hnext, hahead'⟩ := Stack.exists_mem_nexts hread
  obtain rfl := Option.some.inj (hahead.symm.trans hahead')
  cases hcell with
  | shift hsome => simp [hsome] at hshift
  | reduce _ hsome => simp [hsome] at hreduce
  | stuck _ _ hno hnone =>
    rcases (rawGrammar_ruled p).canAct hnext with hcan | ⟨i, hcan⟩
    · exact hno hcan
    · exact hnone i hcan

end Cell

/-! Tokens as the grammar sees them. -/

theorem byType?_of_mark {t : Token} {m : Mark} (h : mark? t = some m) :
    registry.byType? t.type = some m.symbol := by
  have htype : m.type = t.type := by simpa using List.find?_some h
  rw [← htype]
  cases m with
  | op o => cases o <;> decide
  | _ => decide

theorem mark_of_byType? {t : Token} (h : registry.byType? t.type = some s)
    (ht : t.isEnd = false) : ∃ m, mark? t = some m ∧ m.symbol = s := by
  obtain ⟨name, hs⟩ := Registry.get?_of_byType? h
  have hall : ∀ s sym, registry.get? s = some sym → sym.kind = .nonterminal ∨
      sym.kind = .terminal TokenKind.finish.type ∨
      ∃ m ∈ Mark.all, sym.kind = .terminal m.type ∧ m.symbol = s := by
    decide +kernel
  rcases hall s _ hs with hkind | hkind | ⟨m, -, hkind, rfl⟩
  · cases hkind
  · have htype : t.type = TokenKind.finish.type := by simpa using hkind
    simp [Token.isEnd, htype] at ht
  · have htype : t.type = m.type := by simpa using hkind
    refine ⟨m, ?_, rfl⟩
    rw [mark?, htype]
    cases m with
    | op o => cases o <;> decide
    | _ => decide

/-! Frames as parts of a stack. -/

def Part.ofFrame (f : Frame Expr) : Part := ⟨f.symbol, f.child, f.span⟩

/-- A parser of the calculator, with any source of tokens. -/
structure Calculates {σ : Type} (p : Int) (e : Engine σ Nat Expr) : Prop where
  configure : (rawGrammar p).configure = (.ok (), e.grammar)
  builder : e.builder = builder

variable {σ : Type} {e : Engine σ Nat Expr} {c₀ c c' : Config σ Nat Expr} {tokens left : List Token}

theorem symbols_ofFrame (frames : List (Frame Expr)) :
    (frames.map Part.ofFrame).map (·.symbol) = frames.map (·.symbol) := by
  rw [List.map_map]
  rfl

theorem spelled_eq_path {frames : List (Frame Expr)} (h : frames.map Part.ofFrame = st.parts) :
    spelled frames = st.path := by
  rw [← symbols_parts, ← h, symbols_ofFrame, spelled]

theorem map_popped {rhs below : List Part} {rule : Rule}
    (h : c.frames.map Part.ofFrame = rhs.reverse ++ below) (hlen : rhs.length = rule.rhs.length) :
    (popped c rule).map Part.ofFrame = rhs ∧ (Engine.below c rule).map Part.ofFrame = below := by
  have hsize : rhs.reverse.length = rule.rhs.length := by rw [List.length_reverse, hlen]
  constructor
  · rw [popped, List.map_reverse, List.map_take, h, List.take_left' hsize, List.reverse_reverse]
  · rw [Engine.below, List.map_drop, h, List.drop_left' hsize]

theorem spanOf_popped {rule : Rule} {rhs : List Part} (h : (popped c rule).map Part.ofFrame = rhs)
    (t : Token) : spanOf (popped c rule) t =
      (Span.joinAll (rhs.map (·.span))).getD (.single t.span.start) := by
  rw [spanOf, ← h, List.map_map]
  rfl

theorem call_eq (hbuilder : e.builder = builder) (t : Token) {f : Form} {rhs : List Part}
    (h : (popped c (f.placed p)).map Part.ofFrame = rhs) :
    e.call c t (f.placed p) =
      match built t.span.start f rhs with
      | .error err => (.error err, c.parser.builder)
      | .ok n => (.ok (some n), c.parser.builder + 1) := by
  have hchildren : (popped c (f.placed p)).map (·.child) = rhs.map (·.child) := by
    rw [← h, List.map_map]
    rfl
  have hcall : e.call c t (f.placed p) = applyRule c.parser.builder f.id (rhs.map (·.child))
      ((Span.joinAll (rhs.map (·.span))).getD (.single t.span.start)) := by
    rw [call, hbuilder, hchildren, spanOf_popped h]
    rfl
  cases hbuilt : built t.span.start f rhs with
  | error err => simp only [hcall, applyRule, Form.ofId?_id, show build _ _ f = _ from hbuilt]
  | ok n => simp only [hcall, applyRule, Form.ofId?_id, show build _ _ f = _ from hbuilt]

/-! Steps. -/

/-- What the reader makes of the stack and the tokens to come is what it makes of all tokens. -/
def Agrees (p : Int) (ts tokens : List Token) (c : Config σ Nat Expr) : Prop :=
  ∃ (st : Stack) (left : List Token), c.frames.map Part.ofFrame = st.parts ∧ solid ts = tokens ++ left ∧
    st.read p left = read p (solid ts)

theorem left_cases (hts : ∀ t ∈ ts, t.isEnd = false) (h : Feeding e ts tokens c)
    (hleft : solid ts = tokens ++ left) {t : Token} (hahead : c.ahead = some t) :
    (t.isEnd = true ∧ left = []) ∨ (t.isEnd = false ∧ ∃ rest, left = t :: rest) := by
  cases h with
  | @coming rest hrest hsolid =>
    rw [hahead, hleft] at hsolid
    have hcons : left = t :: solid rest := List.append_cancel_left hsolid
    have hmem : t ∈ solid ts := by
      rw [hleft, hcons]
      exact List.mem_append_right _ List.mem_cons_self
    exact Or.inr ⟨hts t (List.mem_of_mem_filter hmem), _, hcons⟩
  | ended hsome hend hsolid =>
    obtain rfl := Option.some.inj (hsome.symm.trans hahead)
    rw [hleft] at hsolid
    exact Or.inl ⟨hend, List.append_right_eq_self.mp hsolid⟩

theorem aheadOf_left (hts : ∀ t ∈ ts, t.isEnd = false) (h : Feeding e ts tokens c)
    (hleft : solid ts = tokens ++ left) {t : Token} (hahead : c.ahead = some t)
    (ht : registry.byType? t.type = some s) : aheadOf left = some s := by
  rcases left_cases hts h hleft hahead with ⟨hend, rfl⟩ | ⟨hend, rest, rfl⟩
  · rw [aheadOf, ← ht]
    exact (registry_built.sound.byType?_of_isEnd hend).symm
  · obtain ⟨m, hm, rfl⟩ := mark_of_byType? ht hend
    rw [aheadOf, hm]
    rfl

theorem not_mentions (p : Int) : ∀ rule ∈ (rawGrammar p).clients,
    ¬ rule.Mentions .start ∧ ¬ rule.Mentions .finish := by
  intro rule hrule
  have hclients : (rawGrammar p).clients = Form.all.map (Form.placed p) := by
    rw [Grammar.clients, (rawGrammar_ruled p).rules]
    rfl
  rw [hclients] at hrule
  obtain ⟨f, -, rfl⟩ := List.mem_map.mp hrule
  have hsides : ∀ s, (f.placed p).Mentions s ↔ s = f.sides.1 ∨ s ∈ f.sides.2 := fun s => Iff.rfl
  rw [hsides, hsides]
  cases f <;> decide

/-- Rules with a single symbol lead from the start to expressions, and from these and references to
terminals. -/
theorem not_looping (p : Int) : ¬ Looping (rawGrammar p).symbols (rawGrammar p).rules := by
  refine not_looping_of_height
    (fun s => if s = .start then 2 else if s = expr ∨ s = reference then 1 else 0) ?_
  rw [(rawGrammar_ruled p).rules]
  intro rule hrule
  rcases List.mem_cons.mp hrule with rfl | hrule
  · simp only [topRule]
    decide
  · obtain ⟨f, -, rfl⟩ := List.mem_map.mp hrule
    have hsides : (f.placed p).lhs = f.sides.1 ∧ (f.placed p).rhs = f.sides.2 := ⟨rfl, rfl⟩
    rw [hsides.1, hsides.2]
    cases f <;> decide

namespace Calculates

variable (h : Calculates p e)
include h

theorem ruled : Ruled p e.grammar := ruled_of_configure h.configure

theorem ready : ∃ start, e.grammar.Ready start :=
  Ready.of_ok (rawGrammar_built p) h.configure fun rule hrule hmem =>
    (not_mentions p rule hrule).1 (Or.inr hmem)

theorem clients_eq : e.grammar.clients = (rawGrammar p).clients := by
  rw [Grammar.clients, h.ruled.rules, Grammar.clients, (rawGrammar_ruled p).rules]

theorem analysis_eq : e.grammar.analysis = (rawGrammar p).analysis :=
  Grammar.analysis_eq (h.ruled.symbols.trans (rawGrammar_ruled p).symbols.symm)
    (h.ruled.rules.trans (rawGrammar_ruled p).rules.symm)

theorem cell (hparts : c.frames.map Part.ofFrame = st.parts)
    (hstands : Stands e.grammar.analysis c.frames) (s : SymbolId) :
    Cell (rawGrammar p) (e.grammar.state (topState c.frames)) st.path s := by
  obtain ⟨start, hready⟩ := h.ready
  have hat := hstands.top hready.tracks.first
  rw [spelled_eq_path hparts, h.analysis_eq] at hat
  exact (rawGrammar_resolved p).cell (rawGrammar_built p) h.configure hat s

theorem not_mentions_finish : ∀ rule ∈ e.grammar.clients, ¬ rule.Mentions .finish := by
  rw [h.clients_eq]
  exact fun rule hrule => (not_mentions p rule hrule).2

theorem shift?_finish (hstands : Stands e.grammar.analysis c.frames) (k : Nat) :
    (e.grammar.state (topState c.frames)).shift? .finish ≠ some k := by
  obtain ⟨start, hready⟩ := h.ready
  intro hshift
  have hcan := (hready.tracks.shift (hstands.top hready.tracks.first) hshift).2
  exact hready.not_canShift_finish
    (fun rule hrule hmem => h.not_mentions_finish rule hrule (Or.inr hmem)) _ hcan

theorem reduces {t : Token} {rule : Rule} (hts : ∀ t ∈ ts, t.isEnd = false)
    (hfeeding : Feeding e ts tokens c) (hparts : c.frames.map Part.ofFrame = st.parts)
    (hstands : Stands e.grammar.analysis c.frames) (hleft : solid ts = tokens ++ left)
    (hahead : c.ahead = some t) (ht : registry.byType? t.type = some s)
    (hshift : (e.grammar.state (topState c.frames)).shift? s = none)
    (hreduce : (e.grammar.state (topState c.frames)).reduce? s = some i) (hi : i ≠ 0)
    (hrule : e.grammar.rules[i]? = some rule) :
    ∃ (f : Form) (rhs : List Part) (next : Expr → Stack) (target : Nat), rule = f.placed p ∧
      rule.rhs.length ≤ c.frames.length ∧
      (e.grammar.state (topState (Engine.below c rule))).shift? rule.lhs = some target ∧
      (popped c rule).map Part.ofFrame = rhs ∧
      (∀ n, (next n).parts =
        ⟨rule.lhs, .node n, n.span⟩ :: (Engine.below c rule).map Part.ofFrame) ∧
      ∀ k, st.read p left = (built k f rhs).toOption.bind fun n => (next n).read p left := by
  obtain ⟨f, rhs, below, next, rfl, hsplit, hlen, hnext, hread⟩ :=
    Stack.reduce_of_cell (h.cell hparts hstands s) hshift hreduce hi
      (aheadOf_left hts hfeeding hleft hahead ht)
  obtain rfl := Option.some.inj ((h.ruled.placed f).symm.trans hrule)
  have hsize : rhs.length = (f.placed p).rhs.length := hlen
  obtain ⟨hpopped, hbelow⟩ := map_popped (hparts.trans hsplit) hsize
  obtain ⟨start, hready⟩ := h.ready
  obtain ⟨rule, target, hrule', hle, -, htarget, -⟩ := hready.reduction hstands hreduce hi
  obtain rfl := Option.some.inj (hrule.symm.trans hrule')
  exact ⟨f, rhs, next, target, rfl, hle, htarget, hpopped, by rw [hbelow]; exact hnext, hread⟩

/-- A step that goes on keeps what the reader makes of the stack and of what is to come. -/
theorem agrees_of_more (hts : ∀ t ∈ ts, t.isEnd = false) (hfeeding : Feeding e ts tokens c)
    (hstands : Stands e.grammar.analysis c.frames) (hagrees : Agrees p ts tokens c)
    (hstep : e.step c = .more c') : Agrees p ts (tokens ++ shiftedBy c c') c' := by
  obtain ⟨st, left, hparts, hleft, hread⟩ := hagrees
  have hsymbols : e.grammar.symbols = registry := h.ruled.symbols
  cases follows_of_more hstep with
  | fetched hahead =>
    rw [shiftedBy_of_none hahead, List.append_nil]
    exact ⟨st, left, hparts, hleft, hread⟩
  | @shifted t s next hahead ht hshift =>
    rw [hsymbols] at ht
    rw [shiftedBy_of_some hahead rfl]
    rcases left_cases hts hfeeding hleft hahead with ⟨hend, -⟩ | ⟨hend, rest, rfl⟩
    · obtain rfl := Option.some.inj ((registry_built.sound.byType?_of_isEnd hend).symm.trans ht)
      exact absurd hshift (h.shift?_finish hstands next)
    · obtain ⟨m, hm, rfl⟩ := mark_of_byType? ht hend
      obtain ⟨st', hparts', hread'⟩ :=
        Stack.shift_of_cell (h.cell hparts hstands m.symbol) ⟨t, hm⟩ rfl hshift
      refine ⟨st', rest, ?_, ?_, (hread' rest).trans hread⟩
      · rw [hparts', ← hparts]
        rfl
      · rw [hleft, List.append_assoc]
        rfl
  | @reduced t s i rule n nodes next stats hahead ht hshift hreduce hi hrule _ hcall htarget =>
    rw [hsymbols] at ht
    obtain ⟨f, rhs, below, _, rfl, hle, -, hpopped, hbelow, hread'⟩ :=
      h.reduces hts hfeeding hparts hstands hleft hahead ht hshift hreduce hi hrule
    rw [call_eq h.builder t hpopped] at hcall
    cases hbuilt : built t.span.start f rhs with
    | error err => simp [hbuilt] at hcall
    | ok n' =>
      rw [hbuilt] at hcall
      cases hcall
      rw [shiftedBy_of_kept rfl, List.append_nil]
      refine ⟨below n, left, ?_, hleft, ?_⟩
      · have hspan : n.span = spanOf (popped c (f.placed p)) t :=
          (span_of_build hbuilt).trans (spanOf_popped hpopped t).symm
        rw [hbelow, hspan]
        rfl
      · rw [← hread, hread' t.span.start, hbuilt]
        rfl

theorem agrees_of_steps (hts : Delivers e.source ts c₀.parser.source)
    (hsteps : Steps e c₀ tokens c) (hframes : c₀.frames = []) (hahead : c₀.ahead = none) :
    Agrees p ts tokens c := by
  obtain ⟨start, hready⟩ := h.ready
  induction hsteps with
  | refl =>
    refine ⟨⟨[], .none⟩, solid ts, ?_, rfl, (read_eq p (solid ts)).symm⟩
    rw [hframes]
    rfl
  | step hsteps hstep ih =>
    exact h.agrees_of_more hts.not_isEnd
      (feeding_of_steps hready h.not_mentions_finish hsteps hframes hahead hts)
      (hready.stands hsteps hframes) ih hstep

/-- At its end a parser has made of the tokens what the reader makes of them. -/
theorem result_of_done
    (hts : ∀ t ∈ ts, t.isEnd = false) (hfeeding : Feeding e ts tokens c)
    (hstands : Stands e.grammar.analysis c.frames) (hagrees : Agrees p ts tokens c)
    {result : Except ParseError Expr} {q : Parser σ Nat} (hdone : e.step c = .done result q) :
    result.toOption = read p (solid ts) := by
  obtain ⟨st, left, hparts, hleft, hread⟩ := hagrees
  have hsymbols : e.grammar.symbols = registry := h.ruled.symbols
  rw [← hread]
  have heffect := e.step_effect c
  rw [hdone] at heffect
  generalize hp : Progress.done result q = progress at heffect
  cases heffect with
  | broken hahead herror =>
    cases hfeeding with
    | coming hrest => exact absurd (congrArg Prod.fst herror) (hrest.next_ok _)
    | ended hsome => simp [hahead] at hsome
  | fetched => cases hp
  | @unknown t hahead ht =>
    cases hp
    rw [hsymbols] at ht
    rcases left_cases hts hfeeding hleft hahead with ⟨hend, -⟩ | ⟨hend, rest, rfl⟩
    · cases (registry_built.sound.byType?_of_isEnd hend).symm.trans ht
    · by_contra hread
      obtain ⟨s, -, hs⟩ := Stack.exists_mem_nexts (Ne.symm hread)
      obtain ⟨m, hm, -⟩ := Option.map_eq_some_iff.mp hs
      cases (byType?_of_mark hm).symm.trans ht
  | @stuck t s hahead ht hshift hreduce =>
    cases hp
    rw [hsymbols] at ht
    exact (Stack.read_of_stuck (h.cell hparts hstands s) hshift hreduce
      (aheadOf_left hts hfeeding hleft hahead ht)).symm
  | shifted => cases hp
  | @accepted t s hahead ht hshift hreduce =>
    rw [hsymbols] at ht
    obtain ⟨n, rfl, hn⟩ := Stack.accept_of_cell (h.cell hparts hstands s) hshift hreduce
      (aheadOf_left hts hfeeding hleft hahead ht)
    obtain ⟨frame, hframes, hframe⟩ := List.map_eq_singleton_iff.mp hparts
    have hchild : frame.child = .node n := congrArg Part.child hframe
    rw [hn]
    obtain ⟨symbol, child, span, top⟩ := frame
    obtain rfl : child = .node n := hchild
    rw [accept, hframes] at hp
    cases hp
    rfl
  | @lost t s i hahead ht hshift hreduce hno =>
    obtain ⟨rule, hrule, -⟩ := Stack.canReduce_of_cell (h.cell hparts hstands s) hshift hreduce
    rw [← h.analysis_eq] at hrule
    cases hno.symm.trans hrule
  | @reduced t s i rule hahead ht hshift hreduce hi hrule =>
    rw [hsymbols] at ht
    obtain ⟨f, rhs, next, target, rfl, hle, htarget, hpopped, hnext, hread'⟩ :=
      h.reduces hts hfeeding hparts hstands hleft hahead ht hshift hreduce hi hrule
    rw [reduce_eq hle, call_eq h.builder t hpopped] at hp
    rw [hread' t.span.start]
    cases hbuilt : built t.span.start f rhs with
    | error err =>
      rw [hbuilt] at hp
      cases hp
      rfl
    | ok n =>
      rw [hbuilt, answered, push_eq htarget] at hp
      cases hp

theorem halts (q : Parser σ Nat) (text : String)
    (hts : Supplies e.source ts (e.source.setInput q.source text)) : e.Halts (e.start q text) := by
  obtain ⟨start, hready⟩ := h.ready
  refine hready.toConfigured.halts_of_not_looping ?_ q text hts
  rw [h.ruled.symbols, h.ruled.rules, ← (rawGrammar_ruled p).symbols, ← (rawGrammar_ruled p).rules]
  exact not_looping p

theorem parse_eq_run (fuel : Nat) (q : Parser σ Nat) (text : String) :
    e.parse fuel q text = e.run fuel (e.start q text) := by
  rw [parse, if_pos (isConfigured_of_ok (rawGrammar_built p) h.configure)]

theorem result_of_delivers {fuel : Nat} {q q' : Parser σ Nat} {text : String}
    {result : Except ParseError Expr} (hparse : e.parse fuel q text = some (result, q'))
    (hts : Delivers e.source ts (e.source.setInput q.source text)) :
    result.toOption = read p (solid ts) := by
  obtain ⟨start, hready⟩ := h.ready
  rw [h.parse_eq_run] at hparse
  obtain ⟨tokens, c, hsteps, hdone⟩ := steps_of_run hparse
  exact h.result_of_done hts.not_isEnd
    (feeding_of_steps hready h.not_mentions_finish hsteps rfl rfl hts)
    (hready.stands hsteps rfl) (h.agrees_of_steps hts hsteps rfl rfl) hdone

/-- Nothing is accepted before the end of the tokens, so not where they break off. -/
theorem not_ok_of_breaks {fuel : Nat} {q q' : Parser σ Nat} {text : String} {n : Expr}
    (hts : Breaks e.source (e.source.setInput q.source text)) :
    e.parse fuel q text ≠ some (.ok n, q') := by
  intro hparse
  obtain ⟨start, hready⟩ := h.ready
  obtain ⟨tokens, c, hsteps, hdone⟩ := exists_steps_of_parse hparse
  obtain ⟨t, s, hahead, -⟩ := accept_of_done hdone
  obtain ⟨taken, htaken, -⟩ := hsteps.taken rfl
  rw [hahead] at htaken
  have hno := (hts.not_isEnd htaken).2 t (by simp)
  rw [isEnd_of_accept hready hsteps hdone hahead] at hno
  cases hno

end Calculates

/-- Whatever the level of the unary minus, parsers of the calculator come to an end, and they accept
the texts that precedence climbing reads, with the same trees. -/
theorem parse_climbs (p : Int) : ∃ g, grammar p = .ok g ∧ g.conflicts = [] ∧
    ∀ (q : Parser Scanner Nat) (text : String),
      (∃ fuel result, (engine g).parse fuel q text = some result) ∧
      ∀ n, (∃ fuel q', (engine g).parse fuel q text = some (.ok n, q')) ↔
        ∃ ts, (q.source.scanAll text).1 = .ok ts ∧ read p (significant ts) = some n := by
  obtain ⟨g, hgrammar, hconflicts, hg⟩ := exists_grammar p
  have h : Calculates p (engine g) := ⟨hg, rfl⟩
  refine ⟨g, hgrammar, hconflicts, fun q text => ?_⟩
  obtain ⟨supplied, hsupplied⟩ := Scanner.exists_supplies (q.source.setInput text)
  obtain ⟨fuel, result, hrun⟩ := h.halts q text hsupplied
  rw [← h.parse_eq_run] at hrun
  refine ⟨⟨fuel, result, hrun⟩, fun n => ?_⟩
  rcases q.source.scanAll_cases text with ⟨ts, last, hts, hlast, hscan⟩ | ⟨hbreaks, err, hscan⟩
  · have hread : ∀ {fuel : Nat} {result : Except ParseError Expr} {q' : Parser Scanner Nat},
        (engine g).parse fuel q text = some (result, q') →
          result.toOption = read p (significant (ts ++ [last])) := by
      intro fuel result q' hparse
      rw [significant_append_end hts.not_isEnd hlast]
      exact h.result_of_delivers hparse hts
    constructor
    · rintro ⟨fuel, q', hparse⟩
      exact ⟨_, hscan, (hread hparse).symm⟩
    · rintro ⟨ts', hscan', hn⟩
      obtain rfl := Except.ok.inj (hscan.symm.trans hscan')
      obtain ⟨result, q'⟩ := result
      rw [← hread hrun] at hn
      cases result with
      | error err => cases hn
      | ok n' =>
        obtain rfl := Option.some.inj hn
        exact ⟨fuel, q', hrun⟩
  · constructor
    · rintro ⟨fuel, q', hparse⟩
      exact absurd hparse (h.not_ok_of_breaks hbreaks)
    · rintro ⟨ts, hscan', -⟩
      cases hscan.symm.trans hscan'

end CanonicalLR.Calculator

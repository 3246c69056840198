import CanonicalLR.Proofs.Calculator.Places
import CanonicalLR.Proofs.Results

/-! What can stand on the stack of a parser of the calculator grammar, and what the reader makes of
it. Above the contexts that wait for the end of an expression there is the beginning of an operand,
or an expression. -/

namespace CanonicalLR.Calculator

open Vocabulary

/-! Frames without their states. -/

structure Part where
  symbol : SymbolId
  child : Child Expr
  span : Span

namespace Part

def token {m : Mark} (t : Of m) : Part := ⟨m.symbol, .token t.1, t.1.span⟩

def expr (e : Expr) : Part := ⟨Vocabulary.expr, .node e, e.span⟩

def reference (e : Expr) : Part := ⟨Vocabulary.reference, .node e, e.span⟩

end Part

namespace Context

/-- The parts of a context, the top one first. -/
def parts : Context → List Part
  | operator _ lhs t => [.token t, .expr lhs]
  | minus t => [.token t]
  | paren t => [.token t]
  | call t t₁ => [.token t₁, .token t]
  | time t t₁ t₂ t₃ t₄ => [.token t₄, .token t₃, .token t₂, .token t₁, .token t]

def word (c : Context) : List SymbolId := (c.parts.map (·.symbol)).reverse

def waiting : Context → Waiting
  | operator o _ _ => .operator o
  | minus _ => .minus
  | paren _ => .paren
  | call _ _ => .call
  | time _ _ _ _ _ => .time

end Context

/-- What stands above the contexts. -/
inductive Top where
  | none
  | int (t : Of .int)
  | float (t : Of .float)
  | ident (t : Of .ident)
  | closed (t : Of .lparen) (e : Expr) (t₁ : Of .rparen)
  | called (t : Of .ident) (t₁ : Of .lparen) (e : Expr) (t₂ : Of .rparen)
  | less (t : Of .less)
  | name (t : Of .less) (t₁ : Of .ident)
  | colon (t : Of .less) (t₁ : Of .ident) (t₂ : Of .colon)
  | spec (t : Of .less) (t₁ : Of .ident) (t₂ : Of .colon) (t₃ : Of .ident)
  | timed (t : Of .less) (t₁ : Of .ident) (t₂ : Of .colon) (t₃ : Of .ident) (t₄ : Of .lbracket)
      (e : Expr) (t₅ : Of .rbracket)
  | reference (t : Of .less) (e : Expr)
  | referenced (t : Of .less) (e : Expr) (t₁ : Of .greater)
  | expr (e : Expr)

namespace Top

def parts : Top → List Part
  | none => []
  | int t => [.token t]
  | float t => [.token t]
  | ident t => [.token t]
  | closed t e t₁ => [.token t₁, .expr e, .token t]
  | called t t₁ e t₂ => [.token t₂, .expr e, .token t₁, .token t]
  | less t => [.token t]
  | name t t₁ => [.token t₁, .token t]
  | colon t t₁ t₂ => [.token t₂, .token t₁, .token t]
  | spec t t₁ t₂ t₃ => [.token t₃, .token t₂, .token t₁, .token t]
  | timed t t₁ t₂ t₃ t₄ e t₅ =>
    [.token t₅, .expr e, .token t₄, .token t₃, .token t₂, .token t₁, .token t]
  | reference t e => [.reference e, .token t]
  | referenced t e t₁ => [.token t₁, .reference e, .token t]
  | expr e => [.expr e]

def word (top : Top) : List SymbolId := (top.parts.map (·.symbol)).reverse

def place (w : Option Waiting) : Top → Place
  | none => .operand w
  | int _ => .int
  | float _ => .float
  | ident _ => .ident
  | closed _ _ _ => .closed
  | called _ _ _ _ => .called
  | less _ => .less
  | name _ _ => .name
  | colon _ _ _ => .colon
  | spec _ _ _ _ => .spec
  | timed _ _ _ _ _ _ _ => .timed
  | reference _ _ => .reference
  | referenced _ _ _ => .referenced
  | expr _ => .expr w

end Top

/-- A stack: contexts, the innermost one first, and what stands above them. -/
structure Stack where
  contexts : List Context
  top : Top

def wordOf (cs : List Context) : List SymbolId := cs.reverse.flatMap Context.word

namespace Stack

variable {st : Stack}

def parts (st : Stack) : List Part := st.top.parts ++ st.contexts.flatMap Context.parts

def path (st : Stack) : List SymbolId := wordOf st.contexts ++ st.top.word

def waiting (st : Stack) : Option Waiting := st.contexts.head?.map Context.waiting

def place (st : Stack) : Place := st.top.place st.waiting

end Stack

theorem wordOf_cons (c : Context) (cs : List Context) : wordOf (c :: cs) = wordOf cs ++ c.word := by
  simp [wordOf]

theorem symbols_parts (st : Stack) : (st.parts.map (·.symbol)).reverse = st.path := by
  have hcontexts : ((st.contexts.flatMap Context.parts).map (·.symbol)).reverse =
      wordOf st.contexts := by
    induction st.contexts with
    | nil => rfl
    | cons c cs ih =>
      rw [List.flatMap_cons, List.map_append, List.reverse_append, ih, wordOf_cons, Context.word]
  rw [Stack.parts, List.map_append, List.reverse_append, hcontexts, Stack.path, Top.word]

theorem after_append (path more : List SymbolId) :
    Place.after (path ++ more) = more.foldl Place.goto (Place.after path) :=
  List.foldl_append

theorem after_wordOf (cs : List Context) :
    Place.after (wordOf cs) = .operand (cs.head?.map Context.waiting) := by
  induction cs with
  | nil => rfl
  | cons c cs ih =>
    rw [wordOf_cons, after_append, ih]
    cases c with
    | operator o => cases o <;> rfl
    | _ => rfl

/-- The symbols on a stack lead to the place of what stands on top. -/
theorem after_path (st : Stack) : Place.after st.path = st.place := by
  obtain ⟨cs, top⟩ := st
  rw [Stack.path, after_append, after_wordOf]
  cases top <;> rfl

/-! Reading on. -/

/-- What is read in the end with these tokens to come. -/
def Stack.read (p : Int) (ts : List Token) : Stack → Option Expr
  | ⟨cs, .none⟩ => start p cs ts
  | ⟨cs, .int t⟩ => start p cs (t.1 :: ts)
  | ⟨cs, .float t⟩ => start p cs (t.1 :: ts)
  | ⟨cs, .ident t⟩ => start p cs (t.1 :: ts)
  | ⟨cs, .closed t e t₁⟩ => resume p (.paren t :: cs) e (t₁.1 :: ts)
  | ⟨cs, .called t t₁ e t₂⟩ => resume p (.call t t₁ :: cs) e (t₂.1 :: ts)
  | ⟨cs, .less t⟩ => start p cs (t.1 :: ts)
  | ⟨cs, .name t t₁⟩ => start p cs (t.1 :: t₁.1 :: ts)
  | ⟨cs, .colon t t₁ t₂⟩ => start p cs (t.1 :: t₁.1 :: t₂.1 :: ts)
  | ⟨cs, .spec t t₁ t₂ t₃⟩ => start p cs (t.1 :: t₁.1 :: t₂.1 :: t₃.1 :: ts)
  | ⟨cs, .timed t t₁ t₂ t₃ t₄ e t₅⟩ => resume p (.time t t₁ t₂ t₃ t₄ :: cs) e (t₅.1 :: ts)
  | ⟨cs, .reference t e⟩ => shut p cs t.1 e ts
  | ⟨cs, .referenced t e t₁⟩ => shut p cs t.1 e (t₁.1 :: ts)
  | ⟨cs, .expr e⟩ => resume p cs e ts

variable {p : Int} {st : Stack} {ts : List Token}

theorem shut_of (t : Token) (e : Expr) (t₁ : Of .greater) (cs : List Context) (ts : List Token) :
    shut p cs t e (t₁.1 :: ts) = resume p cs (enclose t e t₁.1) ts := by
  rw [shut, take_of]
  rfl

theorem mark_eq_of_goto {m : Mark} (m' : Mark) {next : Place}
    (h : (if m.symbol = m'.symbol then next else .nowhere) ≠ .nowhere) : m = m' := by
  by_contra hne
  exact h (if_neg fun he => hne (Mark.symbol_injective he))

/-- A token that leads to another place only moves on to the stack, unless it is an operator that
does not extend what is pending. -/
theorem Stack.exists_shift {m : Mark} (t : Of m) (hgoto : st.place.goto m.symbol ≠ .nowhere)
    (hextends : ∀ e o, st.top = .expr e → m = .op o → o.extends (Context.pending p st.contexts)) :
    ∃ st' : Stack, st'.parts = .token t :: st.parts ∧
      ∀ ts, st'.read p ts = st.read p (t.1 :: ts) := by
  obtain ⟨cs, top⟩ := st
  cases top with
  | none =>
    cases m with
    | op o =>
      cases o with
      | sub => exact ⟨⟨.minus t :: cs, .none⟩, rfl, fun ts => (start_minus t).symm⟩
      | _ => exact absurd rfl hgoto
    | lparen => exact ⟨⟨.paren t :: cs, .none⟩, rfl, fun ts => (start_paren t).symm⟩
    | less => exact ⟨⟨cs, .less t⟩, rfl, fun _ => rfl⟩
    | int => exact ⟨⟨cs, .int t⟩, rfl, fun _ => rfl⟩
    | float => exact ⟨⟨cs, .float t⟩, rfl, fun _ => rfl⟩
    | ident => exact ⟨⟨cs, .ident t⟩, rfl, fun _ => rfl⟩
    | _ => exact absurd rfl hgoto
  | expr e =>
    cases m with
    | op o =>
      exact ⟨⟨.operator o e t :: cs, .none⟩, rfl,
        fun ts => (resume_extends t (hextends e o rfl rfl)).symm⟩
    | rparen =>
      rcases cs with _ | ⟨_ | _ | t₀ | ⟨t₀, t₁⟩ | _, cs⟩
      case cons.paren => exact ⟨⟨cs, .closed t₀ e t⟩, rfl, fun _ => rfl⟩
      case cons.call => exact ⟨⟨cs, .called t₀ t₁ e t⟩, rfl, fun _ => rfl⟩
      all_goals exact absurd rfl hgoto
    | rbracket =>
      rcases cs with _ | ⟨_ | _ | _ | _ | ⟨t₀, t₁, t₂, t₃, t₄⟩, cs⟩
      case cons.time => exact ⟨⟨cs, .timed t₀ t₁ t₂ t₃ t₄ e t⟩, rfl, fun _ => rfl⟩
      all_goals exact absurd rfl hgoto
    | _ => rcases cs with _ | ⟨_ | _ | _ | _ | _, cs⟩ <;> exact absurd rfl hgoto
  | ident t₀ =>
    obtain rfl := mark_eq_of_goto .lparen hgoto
    exact ⟨⟨.call t₀ t :: cs, .none⟩, rfl, fun ts => (start_call t₀ t).symm⟩
  | less t₀ =>
    cases m with
    | ident => exact ⟨⟨cs, .name t₀ t⟩, rfl, fun _ => rfl⟩
    | op o => cases o <;> exact absurd rfl hgoto
    | _ => exact absurd rfl hgoto
  | name t₀ t₁ =>
    obtain rfl := mark_eq_of_goto .colon hgoto
    exact ⟨⟨cs, .colon t₀ t₁ t⟩, rfl, fun _ => rfl⟩
  | colon t₀ t₁ t₂ =>
    obtain rfl := mark_eq_of_goto .ident hgoto
    exact ⟨⟨cs, .spec t₀ t₁ t₂ t⟩, rfl, fun _ => rfl⟩
  | spec t₀ t₁ t₂ t₃ =>
    obtain rfl := mark_eq_of_goto .lbracket hgoto
    exact ⟨⟨.time t₀ t₁ t₂ t₃ t :: cs, .none⟩, rfl, fun ts => (start_time t₀ t₁ t₂ t₃ t).symm⟩
  | reference t₀ e =>
    obtain rfl := mark_eq_of_goto .greater hgoto
    exact ⟨⟨cs, .referenced t₀ e t⟩, rfl, fun _ => rfl⟩
  | int => exact absurd rfl hgoto
  | float => exact absurd rfl hgoto
  | closed => exact absurd rfl hgoto
  | called => exact absurd rfl hgoto
  | timed => exact absurd rfl hgoto
  | referenced => exact absurd rfl hgoto

/-! Building nodes. -/

theorem span_withSpan (span : Span) (e : Expr) : (e.withSpan span).span = span := by
  cases e <;> rfl

theorem span_of_build {span : Span} {cs : Children} {f : Form} {e : Expr}
    (h : build span cs f = .ok e) : e.span = span := by
  have hbinary : ∀ o, buildBinary o span cs = .ok e → e.span = span := by
    intro o h
    obtain ⟨_, -, h⟩ := bind_ok h
    obtain ⟨_, -, h⟩ := bind_ok h
    cases h
    rfl
  have henclosed : buildEnclosed span cs = .ok e → e.span = span := by
    intro h
    obtain ⟨_, -, h⟩ := bind_ok h
    cases h
    exact span_withSpan _ _
  cases f with
  | add => exact hbinary _ h
  | sub => exact hbinary _ h
  | mul => exact hbinary _ h
  | div => exact hbinary _ h
  | pow => exact hbinary _ h
  | paren => exact henclosed h
  | ref => exact henclosed h
  | neg | var | refName | refSpec =>
    obtain ⟨_, -, h⟩ := bind_ok h
    cases h
    rfl
  | int | float =>
    obtain ⟨⟨payload, _⟩, -, h⟩ := bind_ok h
    cases payload <;> cases h
    rfl
  | call =>
    obtain ⟨⟨name, _⟩, -, h⟩ := bind_ok h
    simp only at h
    split at h
    · cases h
    · obtain ⟨_, -, h⟩ := bind_ok h
      cases h
      rfl
  | refTime =>
    obtain ⟨_, -, h⟩ := bind_ok h
    obtain ⟨_, -, h⟩ := bind_ok h
    cases h
    rfl

/-- What a right-hand side is built into, its first part first. -/
def built (k : Nat) (f : Form) (rhs : List Part) : Except ParseError Expr :=
  build ((Span.joinAll (rhs.map (·.span))).getD (.single k)) (rhs.map (·.child)) f

section Built

variable (k : Nat)

theorem built_int (t : Of .int) : (built k .int [.token t]).toOption = intOf? t.1 := by
  have hbuilt : built k .int [.token t] = buildInt t.1.span [.token t.1] := rfl
  rw [hbuilt, buildInt, takePayload, intOf?]
  cases t.1.payload <;> rfl

theorem built_float (t : Of .float) : (built k .float [.token t]).toOption = floatOf? t.1 := by
  have hbuilt : built k .float [.token t] = buildFloat t.1.span [.token t.1] := rfl
  rw [hbuilt, buildFloat, takePayload, floatOf?]
  cases t.1.payload <;> rfl

theorem built_var (t : Of .ident) : (built k .var [.token t]).toOption = varOf? t.1 := by
  have hbuilt : built k .var [.token t] = build t.1.span [.token t.1] .var := rfl
  rw [hbuilt, build, takeIdent, takePayload, varOf?, identOf?]
  cases t.1.payload <;> rfl

theorem built_operator (o : Operator) (lhs e : Expr) (t : Of (.op o)) :
    built k o.form [.expr lhs, .token t, .expr e] =
      .ok (.binary o lhs e (lhs.span.around [t.1.span, e.span])) := by
  cases o <;> rfl

theorem built_neg (t : Of (.op .sub)) (e : Expr) :
    built k .neg [.token t, .expr e] = .ok (.neg e (t.1.span.around [e.span])) := rfl

theorem built_paren (t : Of .lparen) (e : Expr) (t₁ : Of .rparen) :
    built k .paren [.token t, .expr e, .token t₁] = .ok (enclose t.1 e t₁.1) := rfl

theorem built_ref (t : Of .less) (e : Expr) (t₁ : Of .greater) :
    built k .ref [.token t, .reference e, .token t₁] = .ok (enclose t.1 e t₁.1) := rfl

theorem built_call (t : Of .ident) (t₁ : Of .lparen) (e : Expr) (t₂ : Of .rparen) :
    (built k .call [.token t, .token t₁, .expr e, .token t₂]).toOption = call? t.1 t₁.1 e t₂.1 := by
  have hbuilt : built k .call [.token t, .token t₁, .expr e, .token t₂] =
      buildCall (t.1.span.around [t₁.1.span, e.span, t₂.1.span])
        [.token t.1, .token t₁.1, .node e, .token t₂.1] := rfl
  rw [hbuilt, buildCall, takeIdent, takePayload, call?, functionOf?, identOf?]
  cases t.1.payload with
  | ident name =>
    simp only [Option.bind_some]
    cases hf : Function.ofName? name <;> simp [hf, bind, Except.bind, takeNode, Except.toOption]
  | _ => rfl

theorem built_refName (t : Of .ident) : (built k .refName [.token t]).toOption = latest? t.1 := by
  have hbuilt : built k .refName [.token t] = build t.1.span [.token t.1] .refName := rfl
  rw [hbuilt, build, takeIdent, takePayload, latest?, identOf?]
  cases t.1.payload <;> rfl

theorem built_refSpec (t : Of .ident) (t₁ : Of .colon) (t₂ : Of .ident) :
    (built k .refSpec [.token t, .token t₁, .token t₂]).toOption =
      latestSpec? t.1 t₁.1 t₂.1 := by
  have hbuilt : built k .refSpec [.token t, .token t₁, .token t₂] =
      build (t.1.span.around [t₁.1.span, t₂.1.span]) [.token t.1, .token t₁.1, .token t₂.1]
        .refSpec := rfl
  rw [hbuilt, build, takeKey, takeIdent, takePayload, latestSpec?, identOf?, identOf?]
  cases t.1.payload with
  | ident name => 
    simp only [takeIdent, takePayload, List.drop, bind, Except.bind]
    cases t₂.1.payload <;> rfl
  | _ => rfl

theorem built_refTime (t : Of .ident) (t₁ : Of .colon) (t₂ : Of .ident) (t₃ : Of .lbracket) (e : Expr)
    (t₄ : Of .rbracket) :
    (built k .refTime [.token t, .token t₁, .token t₂, .token t₃, .expr e, .token t₄]).toOption =
      sample? t.1 t₁.1 t₂.1 t₃.1 e t₄.1 := by
  have hbuilt : built k .refTime [.token t, .token t₁, .token t₂, .token t₃, .expr e, .token t₄] =
      build (t.1.span.around [t₁.1.span, t₂.1.span, t₃.1.span, e.span, t₄.1.span])
        [.token t.1, .token t₁.1, .token t₂.1, .token t₃.1, .node e, .token t₄.1] .refTime := rfl
  rw [hbuilt, build, takeKey, takeIdent, takePayload, sample?, identOf?, identOf?]
  cases t.1.payload with
  | ident name => 
    simp only [takeIdent, takePayload, List.drop, bind, Except.bind]
    cases t₂.1.payload <;> rfl
  | _ => rfl

end Built

theorem take_eq_none_of_aheadOf {m : Mark} {s : SymbolId} (h : aheadOf ts = some s)
    (hne : m.symbol ≠ s) : take m ts = none := by
  cases htake : take m ts with
  | none => rfl
  | some r =>
    rw [aheadOf_of_take htake, Option.some.injEq] at h
    exact absurd h hne

theorem complete?_operand (w : Option Waiting) : (Place.operand w).complete? = none := by
  have hall : Waiting.all.all fun w => (Place.operand w).complete? == none := by decide +kernel
  simpa using List.all_eq_true.mp hall w (Waiting.mem_all w)

/-- The right-hand side of the rule that is complete, and what is read on with the node built from
it. -/
theorem Stack.exists_reduce {i : Nat} {s : SymbolId} (hcomplete : st.place.complete? = some i)
    (hi : i ≠ 0) (hahead : aheadOf ts = some s) (hfollow : s ∈ mayFollow i)
    (hstops : ∀ e, st.top = .expr e → Stops (Context.pending p st.contexts) ts) :
    ∃ (f : Form) (rhs below : List Part) (next : Expr → Stack), i = f.id ∧
      st.parts = rhs.reverse ++ below ∧ rhs.length = f.sides.2.length ∧
      (∀ e, (next e).parts = ⟨f.sides.1, .node e, e.span⟩ :: below) ∧
      ∀ k, st.read p ts = (built k f rhs).toOption.bind fun e => (next e).read p ts := by
  obtain ⟨cs, top⟩ := st
  cases top with
  | none => exact absurd hcomplete (by simp [place, Top.place, complete?_operand])
  | int t =>
    obtain rfl : Form.int.id = i := Option.some.inj hcomplete
    exact ⟨.int, [.token t], _, fun e => ⟨cs, .expr e⟩, rfl, rfl, rfl, fun _ => rfl,
      fun k => by rw [built_int]; exact start_int t⟩
  | float t =>
    obtain rfl : Form.float.id = i := Option.some.inj hcomplete
    exact ⟨.float, [.token t], _, fun e => ⟨cs, .expr e⟩, rfl, rfl, rfl, fun _ => rfl,
      fun k => by rw [built_float]; exact start_float t⟩
  | ident t =>
    obtain rfl : Form.var.id = i := Option.some.inj hcomplete
    have hnext : take .lparen ts = none :=
      take_eq_none_of_aheadOf hahead fun he => absurd (he ▸ hfollow) (by decide)
    exact ⟨.var, [.token t], _, fun e => ⟨cs, .expr e⟩, rfl, rfl, rfl, fun _ => rfl,
      fun k => by rw [built_var]; exact start_ident t hnext⟩
  | closed t e t₁ =>
    obtain rfl : Form.paren.id = i := Option.some.inj hcomplete
    exact ⟨.paren, [.token t, .expr e, .token t₁], _, fun e => ⟨cs, .expr e⟩, rfl, rfl, rfl,
      fun _ => rfl, fun k => by rw [built_paren]; exact resume_paren t₁⟩
  | called t t₁ e t₂ =>
    obtain rfl : Form.call.id = i := Option.some.inj hcomplete
    exact ⟨.call, [.token t, .token t₁, .expr e, .token t₂], _, fun e => ⟨cs, .expr e⟩, rfl, rfl,
      rfl, fun _ => rfl, fun k => by rw [built_call]; exact resume_call t₂⟩
  | name t t₁ =>
    obtain rfl : Form.refName.id = i := Option.some.inj hcomplete
    have hnext : take .colon ts = none :=
      take_eq_none_of_aheadOf hahead fun he => absurd (he ▸ hfollow) (by decide)
    exact ⟨.refName, [.token t₁], _, fun e => ⟨cs, .reference t e⟩, rfl, rfl, rfl, fun _ => rfl,
      fun k => by rw [built_refName]; exact start_name t t₁ hnext⟩
  | spec t t₁ t₂ t₃ =>
    obtain rfl : Form.refSpec.id = i := Option.some.inj hcomplete
    have hnext : take .lbracket ts = none :=
      take_eq_none_of_aheadOf hahead fun he => absurd (he ▸ hfollow) (by decide)
    exact ⟨.refSpec, [.token t₁, .token t₂, .token t₃], _, fun e => ⟨cs, .reference t e⟩, rfl, rfl,
      rfl, fun _ => rfl, fun k => by rw [built_refSpec]; exact start_spec t t₁ t₂ t₃ hnext⟩
  | timed t t₁ t₂ t₃ t₄ e t₅ =>
    obtain rfl : Form.refTime.id = i := Option.some.inj hcomplete
    exact ⟨.refTime, [.token t₁, .token t₂, .token t₃, .token t₄, .expr e, .token t₅], _,
      fun e => ⟨cs, .reference t e⟩, rfl, rfl, rfl, fun _ => rfl,
      fun k => by rw [built_refTime]; exact resume_time t₅⟩
  | referenced t e t₁ =>
    obtain rfl : Form.ref.id = i := Option.some.inj hcomplete
    exact ⟨.ref, [.token t, .reference e, .token t₁], _, fun e => ⟨cs, .expr e⟩, rfl, rfl, rfl,
      fun _ => rfl, fun k => by rw [built_ref]; exact shut_of t.1 e t₁ cs ts⟩
  | expr e =>
    cases cs with
    | nil => exact absurd (Option.some.inj hcomplete).symm hi
    | cons c cs =>
      cases c with
      | operator o lhs t =>
        obtain rfl : o.form.id = i := by cases o <;> exact Option.some.inj hcomplete
        refine ⟨o.form, [.expr lhs, .token t, .expr e], cs.flatMap Context.parts,
          fun e => ⟨cs, .expr e⟩, rfl, rfl, by cases o <;> rfl, fun _ => by cases o <;> rfl, fun k => ?_⟩
        rw [built_operator]
        exact resume_operator (hstops e rfl)
      | minus t =>
        obtain rfl : Form.neg.id = i := Option.some.inj hcomplete
        exact ⟨.neg, [.token t, .expr e], _, fun e => ⟨cs, .expr e⟩, rfl, rfl, rfl, fun _ => rfl,
          fun k => by rw [built_neg]; exact resume_minus (hstops e rfl)⟩
      | paren => cases hcomplete
      | call => cases hcomplete
      | time => cases hcomplete
  | less => cases hcomplete
  | colon => cases hcomplete
  | reference => cases hcomplete

end CanonicalLR.Calculator

import CanonicalLR.Calculator.Builder
import Mathlib.Tactic.Common

/-! Reading expressions by precedence climbing. Operands are read one after the other, and an
operator goes to the innermost operator or sign that still waits for the end of its operand, unless
this one binds too strongly. What waits around an operand is kept as contexts; with them the reader
can be stopped at any token and goes on from there. -/

namespace CanonicalLR

/-- The place of all that stands at these places. -/
def Span.around (first : Span) (rest : List Span) : Span := rest.foldl Span.join first

namespace Calculator

/-! Tokens as the reader sees them. -/

inductive Mark where
  | op (o : Operator)
  | lparen
  | rparen
  | less
  | greater
  | colon
  | lbracket
  | rbracket
  | int
  | float
  | ident
deriving DecidableEq

namespace Mark

def all : List Mark :=
  [op .add, op .sub, op .mul, op .div, op .pow, lparen, rparen, less, greater, colon, lbracket,
    rbracket, int, float, ident]

theorem mem_all (m : Mark) : m ∈ all := by
  cases m with
  | op o => cases o <;> decide
  | _ => decide

def type : Mark → TokenType
  | op o => o.symbol.val
  | lparen => '('.val
  | rparen => ')'.val
  | less => '<'.val
  | greater => '>'.val
  | colon => ':'.val
  | lbracket => '['.val
  | rbracket => ']'.val
  | int => TokenKind.int.type
  | float => TokenKind.float.type
  | ident => TokenKind.ident.type

end Mark

def mark? (t : Token) : Option Mark := Mark.all.find? (·.type == t.type)

def identOf? (t : Token) : Option String :=
  match t.payload with
  | .ident name => some name
  | _ => none

def functionOf? (t : Token) : Option Function := (identOf? t).bind Function.ofName?

def intOf? (t : Token) : Option Expr :=
  match t.payload with
  | .int n => some (.int n t.span)
  | _ => none

def floatOf? (t : Token) : Option Expr :=
  match t.payload with
  | .float x => some (.float x t.span)
  | _ => none

def varOf? (t : Token) : Option Expr := (identOf? t).map fun name => .var name t.span

/-! The reader. -/

def Operator.level : Operator → Int
  | add | sub => 10
  | mul | div => 20
  | pow => 30

/-- Whether an operator extends the operand of what is pending at this level, if anything is. -/
def Operator.extends (o : Operator) : Option Int → Prop
  | none => True
  | some level => level < o.level ∨ (o.level = level ∧ o = pow)

instance (o : Operator) (pending : Option Int) : Decidable (o.extends pending) :=
  match pending with
  | none => inferInstanceAs (Decidable True)
  | some level => inferInstanceAs (Decidable (level < o.level ∨ (o.level = level ∧ o = .pow)))

/-- What is left of so many tokens when at least one of them is read. -/
abbrev Left (n : Nat) := { ts : List Token // ts.length < n }

/-- Takes a token of this kind. -/
def take (m : Mark) : (ts : List Token) → Option (Token × Left ts.length)
  | [] => none
  | t :: ts => if mark? t = some m then some (t, ⟨ts, Nat.lt_succ_self _⟩) else none

mutual

def readOperand (p : Int) (ts : List Token) : Option (Expr × Left ts.length) :=
  match ts with
  | [] => none
  | t :: ts =>
    match mark? t with
    | some .int => (intOf? t).map (·, ⟨ts, Nat.lt_succ_self _⟩)
    | some .float => (floatOf? t).map (·, ⟨ts, Nat.lt_succ_self _⟩)
    | some .ident =>
      match take .lparen ts with
      | none => (varOf? t).map (·, ⟨ts, Nat.lt_succ_self _⟩)
      | some (t₁, ⟨ts₁, _⟩) => do
        let f ← functionOf? t
        let (e, ⟨ts₂, _⟩) ← readExpr p none ts₁
        let (t₂, ⟨ts₃, _⟩) ← take .rparen ts₂
        some (.call f e (t.span.around [t₁.span, e.span, t₂.span]), ⟨ts₃, by simp only [List.length_cons]; omega⟩)
    | some (.op .sub) => do
      let (e, ⟨ts₁, _⟩) ← readExpr p (some p) ts
      some (.neg e (t.span.around [e.span]), ⟨ts₁, by simp only [List.length_cons]; omega⟩)
    | some .lparen => do
      let (e, ⟨ts₁, _⟩) ← readExpr p none ts
      let (t₁, ⟨ts₂, _⟩) ← take .rparen ts₁
      some (e.withSpan (t.span.around [e.span, t₁.span]), ⟨ts₂, by simp only [List.length_cons]; omega⟩)
    | some .less => do
      let (e, ⟨ts₁, _⟩) ← readReference p ts
      let (t₁, ⟨ts₂, _⟩) ← take .greater ts₁
      some (e.withSpan (t.span.around [e.span, t₁.span]), ⟨ts₂, by simp only [List.length_cons]; omega⟩)
    | _ => none
termination_by (ts.length, 0)

/-- A reference between its angle brackets: a name, perhaps a spec, perhaps a time. -/
def readReference (p : Int) (ts : List Token) : Option (Expr × Left ts.length) := do
  let (t, ⟨ts₁, _⟩) ← take .ident ts
  let name ← identOf? t
  match take .colon ts₁ with
  | none => some (.latest ⟨name, none⟩ t.span, ⟨ts₁, by omega⟩)
  | some (t₁, ⟨ts₂, _⟩) => do
    let (t₂, ⟨ts₃, _⟩) ← take .ident ts₂
    let spec ← identOf? t₂
    match take .lbracket ts₃ with
    | none => some (.latest ⟨name, some spec⟩ (t.span.around [t₁.span, t₂.span]), ⟨ts₃, by omega⟩)
    | some (t₃, ⟨ts₄, _⟩) => do
      let (e, ⟨ts₅, _⟩) ← readExpr p none ts₄
      let (t₄, ⟨ts₆, _⟩) ← take .rbracket ts₅
      some (.sample ⟨name, some spec⟩ e
        (t.span.around [t₁.span, t₂.span, t₃.span, e.span, t₄.span]), ⟨ts₆, by omega⟩)
termination_by (ts.length, 0)

/-- An expression as the operand of what is pending. -/
def readExpr (p : Int) (pending : Option Int) (ts : List Token) :
    Option (Expr × Left ts.length) := do
  let (e, ⟨ts₁, _⟩) ← readOperand p ts
  let (e, ⟨ts₂, _⟩) ← climb p pending e ts₁
  some (e, ⟨ts₂, by omega⟩)
termination_by (ts.length, 1)

/-- Goes on behind an expression with the operators that extend it. -/
def climb (p : Int) (pending : Option Int) (lhs : Expr) (ts : List Token) :
    Option (Expr × Left (ts.length + 1)) :=
  match ts with
  | [] => some (lhs, ⟨[], Nat.one_pos⟩)
  | t :: ts =>
    match mark? t with
    | some (.op o) =>
      if o.extends pending then do
        let (rhs, ⟨ts₁, _⟩) ← readExpr p (some o.level) ts
        let (e, ⟨ts₂, _⟩) ←
          climb p pending (.binary o lhs rhs (lhs.span.around [t.span, rhs.span])) ts₁
        some (e, ⟨ts₂, by simp only [List.length_cons]; omega⟩)
      else some (lhs, ⟨t :: ts, Nat.lt_succ_self _⟩)
    | _ => some (lhs, ⟨t :: ts, Nat.lt_succ_self _⟩)
termination_by (ts.length, 0)

end

/-- The expression that the tokens are, none of them left over, where the unary minus has level
`p`. -/
def read (p : Int) (ts : List Token) : Option Expr := do
  let (e, ⟨rest, _⟩) ← readExpr p none ts
  match rest with
  | [] => some e
  | _ :: _ => none

/-! Reading on from the middle. -/

def Of (m : Mark) : Type := { t : Token // mark? t = some m }

/-- What waits for the end of an expression, with what was read of it before. -/
inductive Context where
  | operator (o : Operator) (lhs : Expr) (t : Of (.op o))
  | minus (t : Of (.op .sub))
  | paren (t : Of .lparen)
  | call (t : Of .ident) (t₁ : Of .lparen)
  | time (t : Of .less) (t₁ : Of .ident) (t₂ : Of .colon) (t₃ : Of .ident) (t₄ : Of .lbracket)

namespace Context

/-- The level that an operator has to exceed inside these contexts, the innermost one first. -/
def pending (p : Int) : List Context → Option Int
  | operator o _ _ :: _ => some o.level
  | minus _ :: _ => some p
  | _ => none

end Context

variable {p : Int} {cs : List Context} {e : Expr} {t : Token} {ts : List Token}

def enclose (t : Token) (e : Expr) (t₁ : Token) : Expr :=
  e.withSpan (t.span.around [e.span, t₁.span])

def call? (t t₁ : Token) (e : Expr) (t₂ : Token) : Option Expr :=
  (functionOf? t).map fun f => .call f e (t.span.around [t₁.span, e.span, t₂.span])

def sample? (t₁ t₂ t₃ t₄ : Token) (e : Expr) (t₅ : Token) : Option Expr :=
  (identOf? t₁).bind fun name => (identOf? t₃).map fun spec => .sample ⟨name, some spec⟩ e
    (t₁.span.around [t₂.span, t₃.span, t₄.span, e.span, t₅.span])

/-- What is read in the end if an expression is complete in its context. -/
def close (p : Int) : List Context → Expr → List Token → Option Expr
  | [], e, [] => some e
  | [], _, _ :: _ => none
  | .operator o lhs t :: cs, e, ts => do
    let (e, ⟨ts, _⟩) ← climb p (Context.pending p cs)
      (.binary o lhs e (lhs.span.around [t.1.span, e.span])) ts
    close p cs e ts
  | .minus t :: cs, e, ts => do
    let (e, ⟨ts, _⟩) ← climb p (Context.pending p cs) (.neg e (t.1.span.around [e.span])) ts
    close p cs e ts
  | .paren t :: cs, e, ts => do
    let (t₁, ⟨ts, _⟩) ← take .rparen ts
    let (e, ⟨ts, _⟩) ← climb p (Context.pending p cs) (enclose t.1 e t₁) ts
    close p cs e ts
  | .call t t₁ :: cs, e, ts => do
    let (t₂, ⟨ts, _⟩) ← take .rparen ts
    let e ← call? t.1 t₁.1 e t₂
    let (e, ⟨ts, _⟩) ← climb p (Context.pending p cs) e ts
    close p cs e ts
  | .time t t₁ t₂ t₃ t₄ :: cs, e, ts => do
    let (t₅, ⟨ts, _⟩) ← take .rbracket ts
    let e ← sample? t₁.1 t₂.1 t₃.1 t₄.1 e t₅
    let (t₆, ⟨ts, _⟩) ← take .greater ts
    let (e, ⟨ts, _⟩) ← climb p (Context.pending p cs) (enclose t.1 e t₆) ts
    close p cs e ts

/-- What is read in the end behind an expression in its context. -/
def resume (p : Int) (cs : List Context) (e : Expr) (ts : List Token) : Option Expr := do
  let (e, ⟨ts, _⟩) ← climb p (Context.pending p cs) e ts
  close p cs e ts

/-- What is read in the end where an operand is to come. -/
def start (p : Int) (cs : List Context) (ts : List Token) : Option Expr := do
  let (e, ⟨ts, _⟩) ← readOperand p ts
  resume p cs e ts

theorem read_eq (p : Int) (ts : List Token) : read p ts = start p [] ts := by
  simp only [read, start, resume, readExpr, Context.pending]
  cases readOperand p ts with
  | none => rfl
  | some r =>
    simp only [Option.bind_eq_bind, Option.bind_some]
    rcases climb p none r.1 r.2 with _ | ⟨e, _ | ⟨t, ts⟩⟩ <;> rfl

/-! Where the reader goes on. -/

theorem take_of (m : Mark) (t : Of m) (ts : List Token) :
    take m (t.1 :: ts) = some (t.1, ⟨ts, Nat.lt_succ_self _⟩) := by
  simp [take, t.2]

theorem take_eq_none {m m' : Mark} (t : Of m) (h : m ≠ m') : take m' (t.1 :: ts) = none := by
  simp [take, t.2, h]

theorem start_int (t : Of .int) :
    start p cs (t.1 :: ts) = (intOf? t.1).bind fun e => resume p cs e ts := by
  simp only [start, readOperand, t.2]
  cases intOf? t.1 <;> rfl

theorem start_float (t : Of .float) :
    start p cs (t.1 :: ts) = (floatOf? t.1).bind fun e => resume p cs e ts := by
  simp only [start, readOperand, t.2]
  cases floatOf? t.1 <;> rfl

theorem start_ident (t : Of .ident) (hnext : take .lparen ts = none) :
    start p cs (t.1 :: ts) = (varOf? t.1).bind fun e => resume p cs e ts := by
  simp only [start, readOperand, t.2, hnext]
  cases varOf? t.1 <;> rfl

theorem start_minus (t : Of (.op .sub)) :
    start p cs (t.1 :: ts) = start p (.minus t :: cs) ts := by
  simp only [start, readOperand, t.2, readExpr, Option.bind_eq_bind, Option.bind_assoc,
    Option.bind_some]
  rfl

theorem start_paren (t : Of .lparen) : start p cs (t.1 :: ts) = start p (.paren t :: cs) ts := by
  simp only [start, readOperand, t.2, readExpr, Option.bind_eq_bind, Option.bind_assoc,
    Option.bind_some]
  rfl

theorem start_call (t : Of .ident) (t₁ : Of .lparen) :
    start p cs (t.1 :: t₁.1 :: ts) = start p (.call t t₁ :: cs) ts := by
  simp only [start, readOperand, t.2, take_of, readExpr, resume, Context.pending, close, call?,
    Option.bind_eq_bind, Option.bind_assoc, Option.bind_some]
  -- the reader looks the function up first, the parser once the argument is complete
  cases functionOf? t.1 with
  | none => simp
  | some f => simp

/-- What is read in the end if a reference is complete but for its closing bracket. -/
def shut (p : Int) (cs : List Context) (t : Token) (e : Expr) (ts : List Token) : Option Expr := do
  let (t₁, ⟨ts, _⟩) ← take .greater ts
  resume p cs (enclose t e t₁) ts

def latest? (t₁ : Token) : Option Expr :=
  (identOf? t₁).map fun name => .latest ⟨name, none⟩ t₁.span

def latestSpec? (t₁ t₂ t₃ : Token) : Option Expr :=
  (identOf? t₁).bind fun name => (identOf? t₃).map fun spec =>
    .latest ⟨name, some spec⟩ (t₁.span.around [t₂.span, t₃.span])

theorem start_name (t : Of .less) (t₁ : Of .ident) (hnext : take .colon ts = none) :
    start p cs (t.1 :: t₁.1 :: ts) = (latest? t₁.1).bind fun e => shut p cs t.1 e ts := by
  simp only [start, readOperand, t.2, readReference, take_of, hnext, latest?, shut, enclose,
    Option.bind_eq_bind, Option.bind_assoc, Option.bind_some]
  cases identOf? t₁.1 with
  | none => simp
  | some name => simp

theorem start_spec (t : Of .less) (t₁ : Of .ident) (t₂ : Of .colon) (t₃ : Of .ident)
    (hnext : take .lbracket ts = none) :
    start p cs (t.1 :: t₁.1 :: t₂.1 :: t₃.1 :: ts) =
      (latestSpec? t₁.1 t₂.1 t₃.1).bind fun e => shut p cs t.1 e ts := by
  simp only [start, readOperand, t.2, readReference, take_of, hnext, latestSpec?, shut, enclose,
    Option.bind_eq_bind, Option.bind_assoc, Option.bind_some]
  cases identOf? t₁.1 with
  | none => simp
  | some name => cases identOf? t₃.1 <;> simp

theorem start_time (t : Of .less) (t₁ : Of .ident) (t₂ : Of .colon) (t₃ : Of .ident)
    (t₄ : Of .lbracket) : start p cs (t.1 :: t₁.1 :: t₂.1 :: t₃.1 :: t₄.1 :: ts) =
      start p (.time t t₁ t₂ t₃ t₄ :: cs) ts := by
  simp only [start, readOperand, t.2, readReference, take_of, readExpr, resume, Context.pending,
    close, sample?, enclose, Option.bind_eq_bind, Option.bind_assoc, Option.bind_some]
  cases identOf? t₁.1 with
  | none => simp
  | some name => cases identOf? t₃.1 <;> simp

/-! Where an expression ends. -/

/-- No operator that extends the operand stands first. -/
def Stops (pending : Option Int) (ts : List Token) : Prop :=
  ∀ t rest o, ts = t :: rest → mark? t = some (.op o) → ¬ o.extends pending

theorem climb_of_stops {pending : Option Int} (h : Stops pending ts) :
    climb p pending e ts = some (e, ⟨ts, Nat.lt_succ_self _⟩) := by
  cases ts with
  | nil => simp only [climb]
  | cons t ts =>
    simp only [climb]
    cases hm : mark? t with
    | none => rfl
    | some m =>
      cases m with
      | op o => exact if_neg (h t ts o rfl hm)
      | _ => rfl

theorem stops_of {m : Mark} (t : Of m) (hm : ∀ o, m ≠ .op o) (pending : Option Int) :
    Stops pending (t.1 :: ts) := by
  rintro _ _ o he ht
  cases he
  rw [t.2, Option.some.injEq] at ht
  exact absurd ht (hm o)

theorem resume_extends {o : Operator} (t : Of (.op o)) (h : o.extends (Context.pending p cs)) :
    resume p cs e (t.1 :: ts) = start p (.operator o e t :: cs) ts := by
  have hpending : Context.pending p (.operator o e t :: cs) = some o.level := rfl
  simp only [resume, climb, t.2, if_pos h, start, readExpr, hpending, close,
    Option.bind_eq_bind, Option.bind_assoc, Option.bind_some]

theorem resume_of_stops (h : Stops (Context.pending p cs) ts) :
    resume p cs e ts = close p cs e ts := by
  simp [resume, climb_of_stops h]

theorem resume_operator {o : Operator} {lhs : Expr} {t : Of (.op o)} (h : Stops (some o.level) ts) :
    resume p (.operator o lhs t :: cs) e ts =
      resume p cs (.binary o lhs e (lhs.span.around [t.1.span, e.span])) ts :=
  resume_of_stops h

theorem resume_minus {t : Of (.op .sub)} (h : Stops (some p) ts) :
    resume p (.minus t :: cs) e ts = resume p cs (.neg e (t.1.span.around [e.span])) ts :=
  resume_of_stops h

theorem resume_nil : resume p [] e [] = some e := by
  have hstops : Stops (Context.pending p []) [] := fun t rest o he => by cases he
  rw [resume_of_stops hstops, close]

theorem resume_paren {t : Of .lparen} (t₁ : Of .rparen) :
    resume p (.paren t :: cs) e (t₁.1 :: ts) = resume p cs (enclose t.1 e t₁.1) ts := by
  rw [resume_of_stops (stops_of t₁ nofun _), close, take_of]
  rfl

theorem resume_call {t : Of .ident} {t₁ : Of .lparen} (t₂ : Of .rparen) :
    resume p (.call t t₁ :: cs) e (t₂.1 :: ts) =
      (call? t.1 t₁.1 e t₂.1).bind fun e => resume p cs e ts := by
  rw [resume_of_stops (stops_of t₂ nofun _), close, take_of]
  rfl

theorem resume_time {t : Of .less} {t₁ : Of .ident} {t₂ : Of .colon} {t₃ : Of .ident}
    {t₄ : Of .lbracket} (t₅ : Of .rbracket) :
    resume p (.time t t₁ t₂ t₃ t₄ :: cs) e (t₅.1 :: ts) =
      (sample? t₁.1 t₂.1 t₃.1 t₄.1 e t₅.1).bind fun e => shut p cs t.1 e ts := by
  rw [resume_of_stops (stops_of t₅ nofun _), close, take_of]
  rfl

/-! What can stand behind an expression. -/

def operators : List Operator := [.add, .sub, .mul, .div, .pow]

def Mark.symbol : Mark → SymbolId
  | op .add => Vocabulary.plus
  | op .sub => Vocabulary.minus
  | op .mul => Vocabulary.star
  | op .div => Vocabulary.slash
  | op .pow => Vocabulary.caret
  | lparen => Vocabulary.lparen
  | rparen => Vocabulary.rparen
  | less => Vocabulary.less
  | greater => Vocabulary.greater
  | colon => Vocabulary.colon
  | lbracket => Vocabulary.lbracket
  | rbracket => Vocabulary.rbracket
  | int => Vocabulary.int
  | float => Vocabulary.float
  | ident => Vocabulary.ident

theorem Mark.symbol_injective : Function.Injective Mark.symbol := by
  have hfind : ∀ m : Mark, Mark.all.find? (·.symbol == m.symbol) = some m := by
    intro m
    cases m with
    | op o => cases o <;> decide
    | _ => decide
  intro m m' h
  exact Option.some.inj ((hfind m).symm.trans (h ▸ hfind m'))

/-- The symbol of the first token, or of the end behind the last one. -/
def aheadOf : List Token → Option SymbolId
  | [] => some .finish
  | t :: _ => (mark? t).map Mark.symbol

/-- What ends the innermost bracket, or the whole. -/
def closing : List Context → SymbolId
  | [] => .finish
  | .operator .. :: cs | .minus _ :: cs => closing cs
  | .paren _ :: _ | .call _ _ :: _ => Vocabulary.rparen
  | .time .. :: _ => Vocabulary.rbracket

def follow (cs : List Context) : List SymbolId :=
  closing cs :: operators.map fun o => (Mark.op o).symbol

theorem mem_follow_op (o : Operator) : (Mark.op o).symbol ∈ follow cs := by
  cases o <;> simp [follow, operators, Mark.symbol]

theorem aheadOf_of_take {m : Mark} {r : Token × Left ts.length} (h : take m ts = some r) :
    aheadOf ts = some m.symbol := by
  cases ts with
  | nil => cases h
  | cons t' ts =>
    rw [take] at h
    split at h
    · rename_i hm
      rw [aheadOf, hm, Option.map_some]
    · cases h

theorem exists_take_of_bind {α : Type} {m : Mark} {f : Token × Left ts.length → Option α}
    (h : (take m ts).bind f ≠ none) : aheadOf ts = some m.symbol := by
  cases htake : take m ts with
  | none => exact absurd (by rw [htake, Option.bind_none]) h
  | some r => exact aheadOf_of_take htake

theorem aheadOf_of_close (hstops : ∀ pending, Stops pending ts) (h : close p cs e ts ≠ none) :
    aheadOf ts = some (closing cs) := by
  induction cs generalizing e with
  | nil =>
    cases ts with
    | nil => rfl
    | cons t ts => exact absurd rfl h
  | cons c cs ih =>
    cases c with
    | operator o lhs t =>
      rw [close, climb_of_stops (hstops _)] at h
      exact ih h
    | minus t =>
      rw [close, climb_of_stops (hstops _)] at h
      exact ih h
    | paren t => exact exists_take_of_bind h
    | call t t₁ => exact exists_take_of_bind h
    | time t t₁ t₂ t₃ t₄ => exact exists_take_of_bind h

theorem exists_mem_follow (h : resume p cs e ts ≠ none) : ∃ s ∈ follow cs, aheadOf ts = some s := by
  by_cases hop : ∃ o : Operator, aheadOf ts = some (Mark.op o).symbol
  · obtain ⟨o, ho⟩ := hop
    exact ⟨_, mem_follow_op o, ho⟩
  · have hstops : ∀ pending, Stops pending ts := by
      rintro pending t rest o rfl ht
      exact absurd ⟨o, by rw [aheadOf, ht, Option.map_some]⟩ hop
    rw [resume_of_stops (hstops _)] at h
    exact ⟨closing cs, List.mem_cons_self, aheadOf_of_close hstops h⟩

end Calculator

end CanonicalLR

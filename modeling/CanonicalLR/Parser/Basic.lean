import CanonicalLR.Grammar.Basic
import CanonicalLR.ParseError

/-! The shift-reduce parser. A configuration holds the stack, the token ahead, and the states of
the token source and the tree builder. One step takes a token from the source, shifts it, reduces
by a rule, or ends the run. -/

namespace CanonicalLR

structure Source (σ : Type) where
  setInput : σ → String → σ
  next : σ → Except ParseError Token × σ

inductive Child (ν : Type) where
  | token (t : Token)
  | node (n : ν)

structure Builder (β ν : Type) where
  apply : β → SymbolId → Rule → List (Child ν) → Span → Except ParseError (Option ν) × β

/-- A symbol on the stack, what it stands for, and the state reached with it. -/
structure Frame (ν : Type) where
  symbol : SymbolId
  child : Child ν
  span : Span
  state : Nat

structure ParserStats where
  tokens : Nat := 0
  shifts : Nat := 0
  reductions : Nat := 0
deriving DecidableEq

structure Parser (σ β : Type) where
  source : σ
  builder : β
  stats : ParserStats := {}

/-- A parser at work: the stack with its top first, and the token ahead once it is taken. -/
structure Config (σ β ν : Type) where
  frames : List (Frame ν)
  ahead : Option Token
  parser : Parser σ β

/-- After a step the run goes on, or it ends with a node or an error. -/
inductive Progress (σ β ν : Type) where
  | more (c : Config σ β ν)
  | done (result : Except ParseError ν) (parser : Parser σ β)

structure Engine (σ β ν : Type) where
  grammar : Grammar
  source : Source σ
  builder : Builder β ν

def topState {ν : Type} (frames : List (Frame ν)) : Nat := (frames.head?.map (·.state)).getD 0

/-- The range of a reduction: that of its frames together, or the place of the token ahead if it
has none. -/
def spanOf {ν : Type} (popped : List (Frame ν)) (ahead : Token) : Span :=
  (Span.joinAll (popped.map (·.span))).getD (.single ahead.span.start)

namespace Engine

variable {σ β ν : Type}

def refuse (e : Engine σ β ν) (state : Nat) (t : Token) : ParseError :=
  if t.isEnd then .unexpectedEnd t.span
  else
    let symbols := e.grammar.symbols
    .syntactic t.span t.text (symbols.namesText ", " ((e.grammar.state state).expected symbols))

def fetch (e : Engine σ β ν) (c : Config σ β ν) : Progress σ β ν :=
  let (result, source) := e.source.next c.parser.source
  let p := { c.parser with source }
  match result with
  | .error err => .done (.error err) p
  | .ok t =>
    let p := { p with stats := { p.stats with tokens := p.stats.tokens + 1 } }
    .more { c with ahead := if t.isTrivia then none else some t, parser := p }

def shift (c : Config σ β ν) (t : Token) (s : SymbolId) (next : Nat) : Config σ β ν :=
  let stats := c.parser.stats
  { frames := ⟨s, .token t, t.span, next⟩ :: c.frames
    ahead := none
    parser := { c.parser with stats := { stats with shifts := stats.shifts + 1 } } }

def accept (e : Engine σ β ν) (c : Config σ β ν) (t : Token) : Progress σ β ν :=
  match c.frames with
  | [⟨_, .node n, _, _⟩] => .done (.ok n) c.parser
  | _ => .done (.error (e.refuse (topState c.frames) t)) c.parser

def push (e : Engine σ β ν) (t : Token) (rule : Rule) (below : List (Frame ν)) (span : Span)
    (n : ν) (p : Parser σ β) : Progress σ β ν :=
  match (e.grammar.state (topState below)).shift? rule.lhs with
  | none => .done (.error (e.refuse (topState below) t)) p
  | some next =>
    let p := { p with stats := { p.stats with reductions := p.stats.reductions + 1 } }
    .more ⟨⟨rule.lhs, .node n, span, next⟩ :: below, some t, p⟩

def reduce (e : Engine σ β ν) (c : Config σ β ν) (t : Token) (rule : Rule) : Progress σ β ν :=
  let size := rule.rhs.length
  if c.frames.length < size then .done (.error (e.refuse (topState c.frames) t)) c.parser
  else
    let popped := (c.frames.take size).reverse
    let span := spanOf popped t
    let (result, builder) :=
      e.builder.apply c.parser.builder rule.lhs rule (popped.map (·.child)) span
    let p := { c.parser with builder }
    match result with
    | .error err => .done (.error err) p
    | .ok none => .done (.error (.unhandledReduction span rule.id)) p
    | .ok (some n) => e.push t rule (c.frames.drop size) span n p

/-- Acts on the token ahead: a shift comes before a reduction, and reducing by rule 0 accepts. -/
def act (e : Engine σ β ν) (c : Config σ β ν) (t : Token) : Progress σ β ν :=
  let top := topState c.frames
  let refused := Progress.done (.error (e.refuse top t)) c.parser
  match e.grammar.symbols.byType? t.type with
  | none => refused
  | some s =>
    let state := e.grammar.state top
    match state.shift? s, state.reduce? s with
    | some next, _ => .more (shift c t s next)
    | none, none => refused
    | none, some 0 => e.accept c t
    | none, some index =>
      match e.grammar.rules[index]? with
      | none => refused
      | some rule => e.reduce c t rule

def step (e : Engine σ β ν) (c : Config σ β ν) : Progress σ β ν :=
  match c.ahead with
  | none => e.fetch c
  | some t => e.act c t

/-- Steps until the run ends; none if it does not end within `fuel` steps. -/
def run (e : Engine σ β ν) : Nat → Config σ β ν → Option (Except ParseError ν × Parser σ β)
  | 0, _ => none
  | fuel + 1, c =>
    match e.step c with
    | .done result p => some (result, p)
    | .more c => e.run fuel c

def start (e : Engine σ β ν) (p : Parser σ β) (text : String) : Config σ β ν :=
  ⟨[], none, { p with source := e.source.setInput p.source text }⟩

def parse (e : Engine σ β ν) (fuel : Nat) (p : Parser σ β) (text : String) :
    Option (Except ParseError ν × Parser σ β) :=
  if e.grammar.isConfigured then e.run fuel (e.start p text)
  else some (.error .notConfigured, p)

theorem run_add (e : Engine σ β ν) (n k : Nat) (c : Config σ β ν)
    {r : Except ParseError ν × Parser σ β} (h : e.run n c = some r) : e.run (n + k) c = some r := by
  induction n generalizing c with
  | zero => simp [run] at h
  | succ n ih =>
    rw [Nat.add_right_comm]
    simp only [run] at h ⊢
    split at h
    · exact h
    · exact ih _ h

end Engine

/-- More steps than a run that ends can take in practice. -/
def ampleFuel : Nat := Nat.pow 2 62

end CanonicalLR

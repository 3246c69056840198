import CanonicalLR.Parser.Basic

/-! The parser over two arrays, one of the states and one of what the symbols stand for. Whatever it
looks up by an index may be missing, and then there is no turn. -/

namespace CanonicalLR

/-- A frame without its state. -/
structure Entry (ν : Type) where
  symbol : SymbolId
  child : Child ν
  span : Span

/-- A parser at work on its arrays, both with the top last. -/
structure Machine (σ β ν : Type) where
  states : List Nat
  entries : List (Entry ν)
  ahead : Option Token
  parser : Parser σ β

/-- What a turn of the machine comes to. The arrays are left as they are when the run ends. -/
inductive Turn (σ β ν : Type) where
  | more (m : Machine σ β ν)
  | done (result : Except ParseError ν) (m : Machine σ β ν)

/-- How a run of the machine ends. -/
inductive Ending (σ β ν : Type) where
  | outOfRange
  | outOfFuel
  | ended (result : Except ParseError ν) (m : Machine σ β ν)

/-- What a run ends with; none if an index was out of range. -/
def Ending.answer? {σ β ν : Type} :
    Ending σ β ν → Option (Option (Except ParseError ν × Parser σ β))
  | outOfRange => none
  | outOfFuel => some none
  | ended result m => some (some (result, m.parser))

namespace Grammar

def expected? (g : Grammar) (state : Nat) : Option String := do
  let actions ← g.states[state]?
  let keys := SymbolSet.ofList (actions.shifts.keys ++ actions.reduces.keys)
  let symbols ← keys.toList.mapM g.symbols.get?
  some (String.intercalate ", " ((symbols.filter (·.isTerminal)).map (·.name)))

def refusal? (g : Grammar) (state : Nat) (t : Token) : Option ParseError :=
  if t.isEnd then some (.unexpectedEnd t.span)
  else (g.expected? state).map (.syntactic t.span t.text)

end Grammar

namespace Machine

variable {σ β ν : Type}

def top? (m : Machine σ β ν) : Option Nat := m.states[m.states.length - 1]?

/-- Where the entries of a rule start, if there are enough of them. -/
def base (m : Machine σ β ν) (rule : Rule) : Nat := m.entries.length - rule.rhs.length

def popped (m : Machine σ β ν) (rule : Rule) : List (Entry ν) := m.entries.drop (m.base rule)

def cut (m : Machine σ β ν) (rule : Rule) (builder : β) : Machine σ β ν :=
  { m with
    states := m.states.take (m.base rule + 1)
    entries := m.entries.take (m.base rule)
    parser := { m.parser with builder } }

def span (m : Machine σ β ν) (rule : Rule) (t : Token) : Span :=
  (Span.joinAll ((m.popped rule).map (·.span))).getD (.single t.span.start)

def call (b : Builder β ν) (m : Machine σ β ν) (rule : Rule) (t : Token) :
    Except ParseError (Option ν) × β :=
  b.apply m.parser.builder rule.lhs rule ((m.popped rule).map (·.child)) (m.span rule t)

def shift (m : Machine σ β ν) (t : Token) (s : SymbolId) (next : Nat) : Machine σ β ν :=
  let stats := m.parser.stats
  { states := m.states ++ [next]
    entries := m.entries ++ [⟨s, .token t, t.span⟩]
    ahead := none
    parser := { m.parser with stats := { stats with shifts := stats.shifts + 1 } } }

def push (m : Machine σ β ν) (s : SymbolId) (n : ν) (span : Span) (next : Nat) : Machine σ β ν :=
  let stats := m.parser.stats
  { m with
    states := m.states ++ [next]
    entries := m.entries ++ [⟨s, .node n, span⟩]
    parser := { m.parser with stats := { stats with reductions := stats.reductions + 1 } } }

end Machine

namespace Engine

variable {σ β ν : Type}

def refuse? (e : Engine σ β ν) (m : Machine σ β ν) (state : Nat) (t : Token) :
    Option (Turn σ β ν) :=
  (e.grammar.refusal? state t).map fun err => .done (.error err) m

def fetchTurn (e : Engine σ β ν) (m : Machine σ β ν) : Turn σ β ν :=
  let (result, source) := e.source.next m.parser.source
  let p := { m.parser with source }
  match result with
  | .error err => .done (.error err) { m with parser := p }
  | .ok t =>
    let p := { p with stats := { p.stats with tokens := p.stats.tokens + 1 } }
    .more { m with ahead := if t.isTrivia then none else some t, parser := p }

def accept? (e : Engine σ β ν) (m : Machine σ β ν) (state : Nat) (t : Token) :
    Option (Turn σ β ν) :=
  let left := { m with entries := m.entries.dropLast }
  match m.entries.getLast? with
  | some ⟨_, .node n, _⟩ =>
    if left.entries.isEmpty then some (.done (.ok n) left) else e.refuse? left state t
  | _ => e.refuse? left state t

def reduce? (e : Engine σ β ν) (m : Machine σ β ν) (state : Nat) (t : Token) (rule : Rule) :
    Option (Turn σ β ν) :=
  if m.entries.length < rule.rhs.length then e.refuse? m state t
  else
    let (result, builder) := m.call e.builder rule t
    let left := m.cut rule builder
    match result with
    | .error err => some (.done (.error err) left)
    | .ok none => some (.done (.error (.unhandledReduction (m.span rule t) rule.id)) left)
    | .ok (some n) => do
      let exposed ← left.states[m.base rule]?
      let actions ← e.grammar.states[exposed]?
      match actions.shift? rule.lhs with
      | none => e.refuse? left exposed t
      | some next => some (.more (left.push rule.lhs n (m.span rule t) next))

/-- Takes a token from the source or acts on the token ahead. The names are for whoever follows
the run. -/
def turn? (e : Engine σ β ν) (m : Machine σ β ν) : Option (Turn σ β ν) :=
  match m.ahead with
  | none => some (e.fetchTurn m)
  | some t => do
    let _ ← m.entries.mapM fun entry => e.grammar.symbols.get? entry.symbol
    let state ← m.top?
    match e.grammar.symbols.byType? t.type with
    | none => e.refuse? m state t
    | some s => do
      let actions ← e.grammar.states[state]?
      match actions.shift? s, actions.reduce? s with
      | some next, _ => some (.more (m.shift t s next))
      | none, none => e.refuse? m state t
      | none, some 0 => e.accept? m state t
      | none, some index => do
        let rule ← e.grammar.rules[index]?
        let _ ← (rule.lhs :: rule.rhs).mapM e.grammar.symbols.get?
        e.reduce? m state t rule

def turns (e : Engine σ β ν) : Nat → Machine σ β ν → Ending σ β ν
  | 0, _ => .outOfFuel
  | fuel + 1, m =>
    match e.turn? m with
    | none => .outOfRange
    | some (.done result m) => .ended result m
    | some (.more m) => e.turns fuel m

/-- The machine cleared for a text. -/
def begin (e : Engine σ β ν) (m : Machine σ β ν) (text : String) : Machine σ β ν :=
  ⟨[0], [], none, { m.parser with source := e.source.setInput m.parser.source text }⟩

def parseOn (e : Engine σ β ν) (fuel : Nat) (m : Machine σ β ν) (text : String) : Ending σ β ν :=
  if e.grammar.isConfigured then e.turns fuel (e.begin m text)
  else .ended (.error .notConfigured) m

end Engine

end CanonicalLR

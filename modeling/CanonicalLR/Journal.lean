import CanonicalLR.Compile
import CanonicalLR.Scanner.Source
import CanonicalLR.Table.Reader

/-! The journal: records of what operations do, for whoever follows a run. Each function gives the
records of one operation, in order; the operations themselves do not keep any. -/

namespace CanonicalLR

inductive Level where
  | trace
  | debug
  | info
  | error
deriving DecidableEq

def Level.name : Level → String
  | trace => "TRACE"
  | debug => "DEBUG"
  | info => "INFO"
  | error => "ERROR"

structure Record where
  level : Level
  text : String
deriving DecidableEq

namespace Journal

def symbol (s : SymbolId) (symbol : Symbol) : Record :=
  ⟨.trace, s!"symbol {s.val} = {Text.quote symbol.name} {symbol.kind.text}"⟩

def registry (r : Registry) : List Record := r.toList.map fun (s, sym) => symbol s sym

/-- What configuring reports: the size of the automaton and the conflicts. A grammar that is not
valid has no item sets and is not reported. -/
def configured (g : Grammar) : List Record :=
  if g.rows.isEmpty then []
  else
    ⟨.debug, s!"configured {g.rules.length} rules into {g.rows.length} item sets"⟩
      :: g.conflicts.map fun c => ⟨.error, c.message⟩

def loaded (result : Except TableError Grammar) : List Record :=
  match result with
  | .ok g => [⟨.debug, s!"loaded {g.states.length} states from table"⟩]
  | .error _ => []

def scanned (s : Scanner) : List Record :=
  match s.next.1 with
  | .ok t =>
    if t.isEnd then []
    else [⟨.trace, s!"scanned {t.text} at {t.span.text} in {s.mode.name} mode"⟩]
  | .error _ => []

def drained (s : Scanner) : List Record :=
  (s :: s.drain.map (·.2)).dropLast.flatMap scanned

section Parsing

variable {σ β ν : Type}

/-- The stack from the bottom up, each state with the symbol that leads out of it, and the token
ahead. -/
def stackText (r : Registry) (frames : List (Frame ν)) (t : Token) : String :=
  let bottomUp := frames.reverse
  let states := 0 :: bottomUp.map (·.state)
  let steps := (bottomUp.zip states).map fun (frame, state) => s!"<{state}> {r.name frame.symbol}  "
  String.join steps ++ s!"<{topState frames}>  <-  {t.text}"

def action (g : Grammar) (state : Nat) (t : Token) : List Record :=
  match g.symbols.byType? t.type with
  | none => []
  | some s =>
    let actions := g.state state
    match actions.shift? s, actions.reduce? s with
    | some next, _ => [⟨.trace, s!"Shift {next}"⟩]
    | none, none => []
    | none, some 0 => [⟨.trace, "Accept"⟩]
    | none, some index =>
      match g.rules[index]? with
      | none => []
      | some rule => [⟨.trace, s!"Reduce {index} ({rule.text g.symbols})"⟩]

def step (e : Engine σ β ν) (fetched : σ → List Record) (c : Config σ β ν) : List Record :=
  match c.ahead with
  | none => fetched c.parser.source
  | some t =>
    ⟨.trace, stackText e.grammar.symbols c.frames t⟩ :: action e.grammar (topState c.frames) t

/-- The records of a run in front of `earlier`, the last one first. -/
def runFrom (e : Engine σ β ν) (fetched : σ → List Record) :
    Nat → Config σ β ν → List Record → List Record
  | 0, _, earlier => earlier
  | fuel + 1, c, earlier =>
    let earlier := (step e fetched c).reverse ++ earlier
    match e.step c with
    | .done _ _ => earlier
    | .more c => runFrom e fetched fuel c earlier

def parsed (e : Engine σ β ν) (fetched : σ → List Record) (fuel : Nat) (p : Parser σ β)
    (text : String) : List Record :=
  if e.grammar.isConfigured then (runFrom e fetched fuel (e.start p text) []).reverse else []

end Parsing

def fileSymbols (file : GrammarFile) : List Record := registry file.registration.2

def summary (result : Except CompileError Summary) : List Record :=
  match result with
  | .ok s =>
    [⟨.info, s!"compiled {s.rules} rules over {s.symbols} symbols into {s.states} states"⟩]
  | .error _ => []

def compiled (source : String) : List Record :=
  match GrammarFile.parse source with
  | .error _ => []
  | .ok file =>
    let registered := fileSymbols file
    match Compile.grammar source with
    | .error _ => registered
    | .ok g =>
      let result := (Compile.source source false).result
      registered ++ configured g.configure.2 ++ summary result

end Journal

end CanonicalLR

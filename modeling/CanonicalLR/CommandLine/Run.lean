import CanonicalLR.Calculator.Basic
import CanonicalLR.CommandLine.Files
import CanonicalLR.CommandLine.Options
import CanonicalLR.Compile

/-! Running a command. What it prints is collected; files are reached through `Files`. -/

namespace CanonicalLR.CommandLine

open CanonicalLR.Calculator CanonicalLR.Text

structure Finish where
  code : Nat := 0
  out : List String := []
  err : List String := []

def failure (message : String) : Finish := { code := 1, err := ["error: " ++ message] }

def conflictFinish (conflicts : List Conflict) : Finish :=
  { code := 1
    err := conflicts.map (·.message) ++ [s!"{conflicts.length} conflicts, no table written"] }

/-- Binds `name=value`; blanks around both do not count. -/
def bindVariable (env : Env) (binding : String) : Except String Env :=
  match splitEquals binding with
  | (_, none) => .error s!"expected name=value, got {quote binding}"
  | (name, some value) =>
    match Decimal.read (trim value.toList) with
    | .error e => .error s!"bad value in {quote binding}: {e.message}"
    | .ok x => .ok (env.set (String.ofList (trim name.toList)) x)

def answer (env : Env) (tree : Bool) (result : Except ParseError Expr) : Except CalcError String :=
  match result with
  | .error e => .error (.parse e)
  | .ok n =>
    if tree then .ok n.text
    else ((env.eval n).mapError .eval).map Decimal.Style.plain.write

/-- Evaluates lines with one parser; the code is 1 if a line fails. -/
def evalLines (e : Engine Scanner Nat Expr) (env : Env) (tree : Bool) :
    Parser Scanner Nat → List String → Finish
  | _, [] => {}
  | p, line :: rest =>
    match e.parse ampleFuel p line with
    | none => failure "parser does not end"
    | some (result, p) =>
      let after := evalLines e env tree p rest
      match answer env tree result with
      | .ok text => { after with out := text :: after.out }
      | .error err => { after with code := 1, err := s!"{line}: {err.message}" :: after.err }

def expressionLines (text : String) : List String :=
  ((lines text.toList).filter fun line => !(trim line).isEmpty).map String.ofList

def evalText (g : Grammar) (env : Env) (tree : Bool) (text : String) : Finish :=
  evalLines (engine g) env tree newParser (expressionLines text)

section Commands

variable {m : Type → Type} [Monad m] [Files m]

def evalInput (o : EvalOptions) : m (Except String String) :=
  match o.expr, o.input with
  | some expr, _ => pure (.ok expr)
  | none, none => pure (.error "one of --expr or --input is required")
  | none, some path => do
    return (← Files.read path).mapError fun e => s!"reading {path}: {e.message}"

def evalGrammar (o : EvalOptions) : m (Except String Grammar) :=
  match o.table with
  | none => pure (.ok defaultGrammar)
  | some path => do
    match ← Files.read path with
    | .error e => pure (.error s!"opening {path}: {e.message}")
    | .ok table => pure ((loadGrammar table).mapError (·.message))

def runEval (o : EvalOptions) : m Finish := do
  match o.bindings.foldlM bindVariable ({} : Env) with
  | .error message => return failure message
  | .ok env =>
    match ← evalInput o with
    | .error message => return failure message
    | .ok text =>
      match ← evalGrammar o with
      | .error message => return failure message
      | .ok g => return evalText g env o.tree text

def writeThen (path text : String) (done : Finish) : m Finish := do
  match ← Files.write path text with
  | .error e => return failure s!"writing {path}: {e.message}"
  | .ok () => return done

def runTables (o : TablesOptions) : m Finish :=
  match grammar o.negLevel with
  | .error (.conflicts all) => pure (conflictFinish all)
  | .error e => pure (failure e.message)
  | .ok g =>
    match Table.write g with
    | .error e => pure (failure e.message)
    | .ok table => writeThen o.output table {}

def createReport (report : Option String) : m (Except String Unit) :=
  match report with
  | none => pure (.ok ())
  | some path => do
    return (← Files.write path "").mapError fun e => s!"creating {path}: {e.message}"

def writeReport (report : Option String) (text : String) : m Unit :=
  match report with
  | none => pure ()
  | some path => do
    let _ ← Files.write path text

def runCompile (o : CompileOptions) : m Finish := do
  match ← Files.read o.grammar with
  | .error e => return failure s!"reading {o.grammar}: {e.message}"
  | .ok text =>
    match ← createReport o.report with
    | .error message => return failure message
    | .ok () =>
      let compiled := Compile.source text o.report.isSome
      writeReport o.report compiled.report
      match compiled.result with
      | .error (.config (.conflicts all)) => return conflictFinish all
      | .error e => return failure s!"compiling {o.grammar}: {e.message}"
      | .ok s =>
        writeThen o.output compiled.table
          { out := [s!"{s.rules} rules, {s.symbols} symbols, {s.states} states"] }

def Command.run : Command → m Finish
  | .eval o => runEval o
  | .tables o => runTables o
  | .compile o => runCompile o

/-- Runs the words of a command line; words that give no command end with code 2. -/
def run (words : List String) : m Finish :=
  match Command.ofWords? words with
  | none => pure { code := 2, err := ["error: bad arguments"] }
  | some command => command.run

end Commands

end CanonicalLR.CommandLine

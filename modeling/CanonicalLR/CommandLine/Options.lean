import CanonicalLR.Calculator.Grammar
import CanonicalLR.Text.Numeral

/-! The commands and their options. An option is given as `--name=value`, `--name value`,
`-n value` or `-nvalue`; a flag as `--name` or `-n`. -/

namespace CanonicalLR.CommandLine

structure EvalOptions where
  expr : Option String
  input : Option String
  bindings : List String
  table : Option String
  tree : Bool

structure TablesOptions where
  output : String
  negLevel : Int

structure CompileOptions where
  grammar : String
  output : String
  report : Option String
  debug : Bool

inductive Command where
  | eval (options : EvalOptions)
  | tables (options : TablesOptions)
  | compile (options : CompileOptions)

structure Spec where
  name : String
  letter : Option Char
  takesValue : Bool

structure Given where
  name : String
  value : String

def splitEquals (s : String) : String × Option String :=
  let name := s.toList.takeWhile (· != '=')
  match s.toList.dropWhile (· != '=') with
  | [] => (s, none)
  | _ :: value => (String.ofList name, some (String.ofList value))

def wordOption (specs : List Spec) (word : String) : Option (Spec × Option String) :=
  match word.toList with
  | '-' :: '-' :: rest =>
    let (name, value) := splitEquals (String.ofList rest)
    (specs.find? (·.name == name)).map (·, value)
  | '-' :: letter :: rest =>
    let value := if rest.isEmpty then none else some (String.ofList rest)
    (specs.find? (·.letter == some letter)).map (·, value)
  | _ => none

/-- Reads all options; none if a word is not one, or a value is missing or out of place. -/
def readOptions (specs : List Spec) : List String → Option (List Given)
  | [] => some []
  | word :: rest =>
    match wordOption specs word, rest with
    | none, _ => none
    | some (⟨name, _, true⟩, some value), rest => (readOptions specs rest).map (⟨name, value⟩ :: ·)
    | some (⟨name, _, true⟩, none), value :: rest =>
      (readOptions specs rest).map (⟨name, value⟩ :: ·)
    | some (⟨_, _, true⟩, none), [] => none
    | some (⟨name, _, false⟩, none), rest => (readOptions specs rest).map (⟨name, ""⟩ :: ·)
    | some (⟨_, _, false⟩, some _), _ => none

def valuesOf (name : String) (given : List Given) : List String :=
  (given.filter (·.name == name)).map (·.value)

def atMostOnce (name : String) (given : List Given) : Option (Option String) :=
  match valuesOf name given with
  | [] => some none
  | [value] => some (some value)
  | _ => none

def pathOnce (name : String) (given : List Given) : Option (Option String) :=
  (atMostOnce name given).filter fun value => value != some ""

def flag (name : String) (given : List Given) : Option Bool :=
  (atMostOnce name given).map (·.isSome)

def readInt32 (s : String) : Option Int :=
  match s.toList with
  | '-' :: digits =>
    ((Text.readDigits digits).filter (· ≤ Text.maxInt32 + 1)).map fun n => -(n : Int)
  | cs => (Text.readNat Text.maxInt32 cs).map Int.ofNat

def evalSpecs : List Spec :=
  [⟨"expr", some 'e', true⟩, ⟨"input", some 'i', true⟩, ⟨"set", some 's', true⟩,
    ⟨"table", some 't', true⟩, ⟨"tree", none, false⟩]

def readEval (words : List String) : Option EvalOptions := do
  let given ← readOptions evalSpecs words
  let expr ← atMostOnce "expr" given
  let input ← pathOnce "input" given
  let table ← pathOnce "table" given
  let tree ← flag "tree" given
  if expr.isSome && input.isSome then none
  else some { expr, input, bindings := valuesOf "set" given, table, tree }

def tablesSpecs : List Spec :=
  [⟨"output", some 'o', true⟩, ⟨"neg-prec", none, true⟩]

def readTables (words : List String) : Option TablesOptions := do
  let given ← readOptions tablesSpecs words
  let output ← (← pathOnce "output" given)
  match ← atMostOnce "neg-prec" given with
  | none => some { output, negLevel := Calculator.defaultNegLevel }
  | some level => (readInt32 level).map fun negLevel => { output, negLevel }

def compileSpecs : List Spec :=
  [⟨"grammar", some 'g', true⟩, ⟨"output", some 'o', true⟩, ⟨"report", some 'r', true⟩,
    ⟨"debug", some 'd', false⟩]

def readCompile (words : List String) : Option CompileOptions := do
  let given ← readOptions compileSpecs words
  let grammar ← (← pathOnce "grammar" given)
  let output ← (← pathOnce "output" given)
  let report ← pathOnce "report" given
  let debug ← flag "debug" given
  some { grammar, output, report, debug }

def Command.ofWords? : List String → Option Command
  | "eval" :: words => (readEval words).map .eval
  | "tables" :: words => (readTables words).map .tables
  | "compile" :: words => (readCompile words).map .compile
  | _ => none

end CanonicalLR.CommandLine

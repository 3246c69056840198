import CanonicalLR.GrammarFile.Grammar
import CanonicalLR.Report
import CanonicalLR.Table.Writer

/-! Compiling a grammar file into a parse table, with a report on request. The table is written
only if the grammar has no conflict, line by line; the report is written either way. -/

namespace CanonicalLR

inductive CompileError where
  | file (e : GrammarFileError)
  | config (e : ConfigError)
  | table (e : TableError)

def CompileError.message : CompileError → String
  | file e => e.message
  | config e => e.message
  | table e => e.message

structure Summary where
  rules : Nat
  symbols : Nat
  states : Nat
deriving DecidableEq

structure Compiled where
  result : Except CompileError Summary
  table : String := ""
  report : String := ""

namespace Compile

def grammar (source : String) : Except CompileError Grammar := do
  let file ← (GrammarFile.parse source).mapError .file
  let symbols ← file.symbols.mapError .config
  (file.grammar symbols).mapError .file

def summary (g : Grammar) : Summary := ⟨g.rules.length, g.symbols.size, g.states.length⟩

def finish (configured : Except ConfigError Unit × Grammar) (report : String) : Compiled :=
  match configured with
  | (.error e, _) => { result := .error (.config e), report }
  | (.ok (), g) =>
    match Table.write g with
    | .error e => { result := .error (.table e), table := Table.written g, report }
    | .ok table => { result := .ok (summary g), table, report }

def source (text : String) (wantReport : Bool) : Compiled :=
  match grammar text with
  | .error e => { result := .error e }
  | .ok g =>
    let configured := g.configure
    finish configured (if wantReport then Report.full configured.2 else "")

end Compile

end CanonicalLR

import CanonicalLR.GrammarFile.Basic

/-! The registry and the grammar that a grammar file describes. -/

namespace CanonicalLR.GrammarFile

def registerPart (r : Registry) : Part → Except ConfigError (SymbolId × Registry)
  | .terminal t => r.terminal t.type
  | .nonterminal name => r.nonterminal name

/-- Registers parts in turn, up to the first that fails, with the registry reached. -/
def registerAll : Registry → List Part → Except ConfigError Unit × Registry
  | r, [] => (.ok (), r)
  | r, part :: rest =>
    match registerPart r part with
    | .error e => (.error e, r)
    | .ok (_, r) => registerAll r rest

/-- The symbols of a file in the order of their registration: the terminals of the declarations,
then each production from left to right. -/
def parts (file : GrammarFile) : List Part :=
  file.declarations.flatMap (fun d => d.terminals.map .terminal)
    ++ file.productions.flatMap fun p => .nonterminal p.lhs :: p.rhs

def registration (file : GrammarFile) : Except ConfigError Unit × Registry :=
  registerAll .new file.parts

def symbols (file : GrammarFile) : Except ConfigError Registry :=
  match file.registration with
  | (.error e, _) => .error e
  | (.ok (), r) => .ok r

def findName (r : Registry) (name : String) : Except GrammarFileError SymbolId :=
  match r.byName? name with
  | some s => .ok s
  | none => .error (.unknownSymbol name)

def findTerminal (r : Registry) (t : Terminal) : Except GrammarFileError SymbolId :=
  match r.byType? t.type with
  | some s => .ok s
  | none => .error (.unknownTerminal t.type)

def findPart (r : Registry) : Part → Except GrammarFileError SymbolId
  | .terminal t => findTerminal r t
  | .nonterminal name => findName r name

def ruleOf (r : Registry) (p : Production) (i : Nat) : Except GrammarFileError Rule := do
  let lhs ← findName r p.lhs
  let rhs ← p.rhs.mapM (findPart r)
  .ok { id := i + 1, lhs, rhs, prec := p.prec }

def underived? (file : GrammarFile) (p : Production) : Option String :=
  p.rhs.findSome? fun
    | .terminal _ => none
    | .nonterminal name => if file.productions.any (·.lhs == name) then none else some name

def checkDerived (file : GrammarFile) : Except GrammarFileError Unit :=
  match file.productions.findSome? fun p => (file.underived? p).map (p.line, ·) with
  | some (line, name) => .error (.inLine line (.noRulesFor name))
  | none => .ok ()

def applyDeclaration (g : Grammar) (d : Declaration) : Except GrammarFileError Grammar := do
  let ids ← d.terminals.mapM (findTerminal g.symbols)
  .ok (g.declare d.assoc d.level ids)

def grammar (file : GrammarFile) (r : Registry) : Except GrammarFileError Grammar := do
  let rules ← file.productions.zipIdx.mapM fun (p, i) => ruleOf r p i
  file.checkDerived
  match file.startSymbol? with
  | none => .error .noRules
  | some name => do
    let start ← findName r name
    let g := (rules.foldl Grammar.addRule (.new r)).setStart start
    file.declarations.foldlM applyDeclaration g

end CanonicalLR.GrammarFile

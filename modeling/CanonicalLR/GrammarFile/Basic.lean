import CanonicalLR.Grammar.Basic
import CanonicalLR.GrammarFile.Word
import CanonicalLR.Text.Numeral

/-! Grammar files: a start declaration, precedence declarations and productions, one to a line.
Capitalised names are nonterminals, small names are kinds of tokens, and single punctuation
characters are terminals. -/

namespace CanonicalLR

namespace GrammarFile

inductive Terminal where
  | char (c : Char)
  | kind (k : TokenKind)
deriving DecidableEq

def Terminal.type : Terminal → TokenType
  | char c => c.val
  | kind k => k.type

inductive Part where
  | terminal (t : Terminal)
  | nonterminal (name : String)
deriving DecidableEq

structure Production where
  label : Option String
  lhs : String
  rhs : List Part
  prec : Option Int
  line : Nat
deriving DecidableEq

structure Declaration where
  assoc : Assoc
  level : Int
  terminals : List Terminal
deriving DecidableEq

end GrammarFile

structure GrammarFile where
  start : Option String := none
  declarations : List GrammarFile.Declaration := []
  productions : List GrammarFile.Production := []
deriving DecidableEq

namespace GrammarFile

open CanonicalLR.Text

def readTerminal (line : Nat) (w : Word) : Except GrammarFileError Terminal :=
  match w.kind, w.chars with
  | .sym, c :: _ => .ok (.char c)
  | .atom, _ =>
    match TokenKind.ofName? w.text with
    | none | some .finish | some .whitespace => .error (.inLine line (.notTokenKind w.text))
    | some k => .ok (.kind k)
  | _, _ => .error (.inLine line (.notTerminal w.text))

def readLevel (line : Nat) : Option Word → Except GrammarFileError Int
  | none => .error (.inLine line .missingLevel)
  | some w =>
    if w.kind = .number then
      match readNat maxInt32 w.chars with
      | some n => .ok n
      | none => .error .levelTooLarge
    else .error (.inLine line (.notLevel w.text))

def readStart (line : Nat) : List Word → Except GrammarFileError String
  | [w] => if w.kind = .var then .ok w.text else .error (.inLine line .startForm)
  | _ => .error (.inLine line .startForm)

def readDeclaration (line : Nat) (assoc : Assoc) (directive : String) (args : List Word) :
    Except GrammarFileError Declaration := do
  let level ← readLevel line args.head?
  let terminals ← (args.drop 1).mapM (readTerminal line)
  if terminals.isEmpty then .error (.inLine line (.noTerminals directive))
  else .ok ⟨assoc, level, terminals⟩

def assocOf? : String → Option Assoc
  | "%left" => some .left
  | "%right" => some .right
  | "%nonassoc" => some .nonassoc
  | _ => none

def readDirective (file : GrammarFile) (line : Nat) (directive : String) (args : List Word) :
    Except GrammarFileError GrammarFile :=
  if directive = "%start" then do
    let name ← readStart line args
    .ok { file with start := some name }
  else
    match assocOf? directive with
    | none => .error (.inLine line (.unknownDirective directive))
    | some assoc => do
      let declaration ← readDeclaration line assoc directive args
      .ok { file with declarations := file.declarations ++ [declaration] }

def isPrec (w : Word) : Bool := w.kind == .directive && w.text == "%prec"

def cutPrec (line : Nat) (ws : List Word) : Except GrammarFileError (List Word × Option Int) :=
  match ws.findIdx? isPrec with
  | none => .ok (ws, none)
  | some i =>
    if i + 2 = ws.length then
      (readLevel line ws[i + 1]?).map fun level => (ws.take i, some level)
    else .error (.inLine line .precNotLast)

def readPart (line : Nat) (w : Word) : Except GrammarFileError Part :=
  if w.kind = .var then .ok (.nonterminal w.text) else (readTerminal line w).map .terminal

def cutLabel : List Word → Option String × List Word
  | w :: ws =>
    if w.kind = .label then (some (String.ofList w.chars.dropLast), ws) else (none, w :: ws)
  | [] => (none, [])

def readProduction (line : Nat) (ws : List Word) : Except GrammarFileError Production :=
  match cutLabel ws with
  | (label, lhs :: arrow :: rest) =>
    if lhs.kind = .var ∧ arrow.kind = .arrow then do
      let (parts, prec) ← cutPrec line rest
      let rhs ← parts.mapM (readPart line)
      .ok { label, lhs := lhs.text, rhs, prec, line }
    else .error (.inLine line .ruleForm)
  | _ => .error (.inLine line .ruleForm)

def readLine (file : GrammarFile) (entry : Nat × List Word) :
    Except GrammarFileError GrammarFile :=
  match entry with
  | (_, []) => .ok file
  | (line, w :: ws) =>
    if w.kind = .directive then file.readDirective line w.text ws
    else do
      let production ← readProduction line (w :: ws)
      .ok { file with productions := file.productions ++ [production] }

def parse (source : String) : Except GrammarFileError GrammarFile := do
  let lines ← wordLines source.toList
  let file ← lines.foldlM readLine {}
  if file.productions.isEmpty then .error .noRules else .ok file

/-- The declared start symbol, or the left-hand side of the first production. -/
def startSymbol? (file : GrammarFile) : Option String :=
  file.start.or (file.productions.head?.map (·.lhs))

def labels (file : GrammarFile) : List String :=
  file.productions.mapIdx fun i p => p.label.getD s!"rule{i + 1}"

end GrammarFile

end CanonicalLR

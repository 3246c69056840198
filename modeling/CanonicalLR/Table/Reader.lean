import CanonicalLR.Table.Writer

/-! Reading a parse table into a grammar with the same rules. Blank lines and lines that start
with two dashes are passed over; each other line is a record of fields between commas. -/

namespace CanonicalLR.Table

open CanonicalLR.Text

structure Draft where
  rules : Option Nat := none
  declared : Option Nat := none
  states : List State := []
deriving DecidableEq

abbrev Fields := List (List Char)

def takeNumber (line : Nat) (what : String) : Fields → Except TableError (Nat × Fields)
  | [] => .error (.malformed line (.missing what))
  | field :: rest =>
    match readNat maxUInt64 (trim field) with
    | some n => .ok (n, rest)
    | none => .error (.malformed line (.badNumber what (String.ofList field)))

/-- The symbol of a field: a number is a terminal type, all else the name of a nonterminal. -/
def findSymbol (r : Registry) (field : List Char) : Option SymbolId :=
  match readNat maxUInt32 field with
  | some type => r.byType? (UInt32.ofNat type)
  | none => (r.byName? (String.ofList field)).filter fun s => !r.isTerminal s

def takeSymbol (r : Registry) (line : Nat) : Fields → Except TableError (SymbolId × Fields)
  | [] => .error (.malformed line (.missing "symbol"))
  | field :: rest =>
    match findSymbol r (trim field) with
    | some s => .ok (s, rest)
    | none => .error (.unknownSymbol line (String.ofList (trim field)))

def Draft.onLast (d : Draft) (change : State → State) : Draft :=
  { d with states := d.states.modify (d.states.length - 1) change }

def readRules (g : Grammar) (line : Nat) (d : Draft) (fs : Fields) :
    Except TableError (Draft × Fields) := do
  let (found, rest) ← takeNumber line "rule count" fs
  if found = g.rules.length then .ok ({ d with rules := some found }, rest)
  else .error (.ruleCountMismatch g.rules.length found)

def readStates (line : Nat) (d : Draft) (fs : Fields) : Except TableError (Draft × Fields) := do
  let (declared, rest) ← takeNumber line "state count" fs
  .ok ({ d with declared := some declared }, rest)

def readState (line : Nat) (d : Draft) (fs : Fields) : Except TableError (Draft × Fields) := do
  let (index, rest) ← takeNumber line "state index" fs
  if index = d.states.length then .ok ({ d with states := d.states ++ [{}] }, rest)
  else .error (.malformed line (.outOfOrder index d.states.length))

def takeEntry (g : Grammar) (line : Nat) (tag : String) (d : Draft) (fs : Fields) :
    Except TableError (SymbolId × Nat × Fields) := do
  let (s, rest) ← takeSymbol g.symbols line fs
  let (target, rest) ← takeNumber line "target" rest
  if d.states.isEmpty then .error (.malformed line (.beforeAnyState tag))
  else .ok (s, target, rest)

def readShift (g : Grammar) (line : Nat) (d : Draft) (fs : Fields) :
    Except TableError (Draft × Fields) := do
  let (s, next, rest) ← takeEntry g line "SH" d fs
  .ok (d.onLast fun state => { state with shifts := state.shifts.insert s next }, rest)

def readReduce (g : Grammar) (line : Nat) (d : Draft) (fs : Fields) :
    Except TableError (Draft × Fields) := do
  let (s, rule, rest) ← takeEntry g line "RD" d fs
  if rule < g.rules.length then
    .ok (d.onLast fun state => { state with reduces := state.reduces.insert s rule }, rest)
  else .error (.malformed line (.ruleOutOfRange rule))

def readRecord (g : Grammar) (line : Nat) (d : Draft) (tag : String) (fs : Fields) :
    Except TableError (Draft × Fields) :=
  match tag with
  | "RULES" => readRules g line d fs
  | "STATES" => readStates line d fs
  | "S" => readState line d fs
  | "SH" => readShift g line d fs
  | "RD" => readReduce g line d fs
  | _ => .error (.malformed line (.unknownRecord tag))

def isSkipped (text : List Char) : Bool := text.isEmpty || ['-', '-'].isPrefixOf text

def readLine (g : Grammar) (line : Nat) (d : Draft) (text : List Char) :
    Except TableError Draft :=
  let text := trim text
  if isSkipped text then .ok d
  else
    match fields ',' text with
    | [] => .ok d
    | tag :: fs => do
      let (d, rest) ← readRecord g line d (String.ofList tag) fs
      if rest.isEmpty then .ok d else .error (.malformed line .trailingFields)

/-- Reads the lines after `line` lines; a line that is not text is none. -/
def readLines (g : Grammar) : Nat → Draft → List (Option (List Char)) →
    Except TableError (Nat × Draft)
  | line, d, [] => .ok (line, d)
  | _, _, none :: _ => .error .notText
  | line, d, some text :: rest => do
    let d ← readLine g (line + 1) d text
    readLines g (line + 1) d rest

def firstMissing? (states : List State) : Option (Nat × Nat) :=
  states.zipIdx.findSome? fun (state, i) =>
    (state.shifts.entries.find? fun entry => states.length ≤ entry.2).map fun entry => (i, entry.2)

def finish (line : Nat) (d : Draft) : Except TableError (List State) :=
  match d.rules, d.declared with
  | none, _ => .error (.malformed line (.missingRecord "RULES"))
  | _, none => .error (.malformed line (.missingRecord "STATES"))
  | some _, some declared =>
    if declared ≠ d.states.length || d.states.isEmpty then
      .error (.malformed line (.stateCount declared d.states.length))
    else
      match firstMissing? d.states with
      | some (state, next) => .error (.malformed line (.missingTarget state next))
      | none => .ok d.states

def readStatesOf (g : Grammar) (lines : List (Option (List Char))) :
    Except TableError (List State) := do
  let (line, d) ← readLines g 0 {} lines
  finish line d

/-- Reads a table into a grammar; a grammar whose table cannot be read stays as it is. -/
def load (g : Grammar) (text : String) : Except TableError Grammar :=
  (readStatesOf g ((pieces '\n' text.toList).map some)).map g.install

def decodeLine (bytes : List UInt8) : Option (List Char) :=
  (String.fromUTF8? ⟨bytes.toArray⟩).map String.toList

def loadBytes (g : Grammar) (bytes : List UInt8) : Except TableError Grammar :=
  (readStatesOf g ((pieces 10 bytes).map decodeLine)).map g.install

end CanonicalLR.Table

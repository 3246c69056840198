import CanonicalLR.Grammar.Basic
import CanonicalLR.Table.Error
import CanonicalLR.Text.Blank
import CanonicalLR.Text.Lines
import CanonicalLR.Text.Numeral

/-! Parse tables as text: a line for the number of rules, one for the number of states, and for
each state a line with its number, its shifts and its reductions. A terminal is written as its
type, a nonterminal as its name. -/

namespace CanonicalLR.Table

open CanonicalLR.Text

def header : String := "-- lrforge parse table"

/-- A name that cannot be told from a number or does not survive cutting and trimming. -/
def isUnwritable (name : String) : Bool :=
  name.isEmpty || (readNat maxUInt32 name.toList).isSome
    || name.toList.any fun c => c == ',' || isBlank c

def nameField (name : String) : Except TableError String :=
  if isUnwritable name then .error (.unwritableName name) else .ok name

def symbolField (r : Registry) (s : SymbolId) : Except TableError String :=
  match (r.get? s).bind (·.type?) with
  | some type => .ok (toString type.toNat)
  | none => nameField (r.name s)

def entryLine (r : Registry) (tag : String) (entry : SymbolId × Nat) : Except TableError String :=
  (symbolField r entry.1).map fun field => s!"{tag},{field},{entry.2}"

def stateLines (r : Registry) (i : Nat) (state : State) : List (Except TableError String) :=
  .ok s!"S,{i}" :: state.shifts.entries.map (entryLine r "SH")
    ++ state.reduces.entries.map (entryLine r "RD")

/-- The lines of the table, with an error in the place of a line that cannot be written. -/
def tableLines (g : Grammar) : List (Except TableError String) :=
  [.ok header, .ok s!"RULES,{g.rules.length}", .ok s!"STATES,{g.states.length}"]
    ++ (g.states.mapIdx (stateLines g.symbols)).flatten

def emit : Option Nat → List (Except TableError String) → Except TableError (List String)
  | _, [] => .ok []
  | _, .error e :: _ => .error e
  | none, .ok line :: rest => (emit none rest).map (line :: ·)
  | some room, .ok line :: rest =>
    let size := line.utf8ByteSize + 1
    if room < size then .error .noRoom else (emit (some (room - size)) rest).map (line :: ·)

def writeWithin (room : Option Nat) (g : Grammar) : Except TableError String :=
  if g.isConfigured then (emit room (tableLines g)).map unlines else .error .notConfigured

def write (g : Grammar) : Except TableError String := writeWithin none g

/-- The lines up to the first one that cannot be written. -/
def begun : List (Except TableError String) → List String
  | .ok line :: rest => line :: begun rest
  | _ => []

/-- What has gone out when writing ends, with an error or without. -/
def written (g : Grammar) : String :=
  if g.isConfigured then unlines (begun (tableLines g)) else ""

end CanonicalLR.Table

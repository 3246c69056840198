import CanonicalLR.Decimal.Reading
import CanonicalLR.ParseError
import CanonicalLR.Scanner.Lexeme
import CanonicalLR.Token

/-! The scanner cuts a text into tokens, the longest lexeme first, and keeps a stack of modes for
the references and time indices that are open. -/

namespace CanonicalLR

structure ScannerStats where
  tokens : Nat := 0
  /-- Characters read, those read again after a rewind included. -/
  chars : Nat := 0
  /-- How often characters beyond the lexeme were read and given back. -/
  rewinds : Nat := 0
deriving DecidableEq

/-- The text still to be read, its offset in the whole text, and the open modes, innermost
first. -/
structure Scanner where
  rest : List Char := []
  offset : Nat := 0
  modes : List Mode := []
  stats : ScannerStats := {}
deriving DecidableEq

namespace Scanner

def setInput (s : Scanner) (text : String) : Scanner :=
  { s with rest := text.toList, offset := 0, modes := [] }

def ofText (text : String) : Scanner := ({} : Scanner).setInput text

def mode (s : Scanner) : Mode := s.modes.headD .normal

def identToken (span : Span) (text : String) : Token :=
  if text = "true" then ⟨span, TokenKind.bool.type, .bool true⟩
  else if text = "false" then ⟨span, TokenKind.bool.type, .bool false⟩
  else ⟨span, TokenKind.ident.type, .ident text⟩

def intToken (span : Span) (cs : List Char) : Except ParseError Token :=
  match Text.readNat Text.maxInt64 cs with
  | some n => .ok ⟨span, TokenKind.int.type, .int n⟩
  | none => .error (.lexical span (String.ofList cs))

def floatToken (span : Span) (cs : List Char) : Except ParseError Token :=
  match Decimal.read cs with
  | .ok x => .ok ⟨span, TokenKind.float.type, .float x⟩
  | .error _ => .error (.lexical span (String.ofList cs))

def token (span : Span) (cs : List Char) : Lexeme → Except ParseError Token
  | .punct => .ok (.punct span (cs.headD ' '))
  | .blank => .ok ⟨span, TokenKind.whitespace.type, .none⟩
  | .string => .ok ⟨span, TokenKind.str.type, .str (String.ofList (cs.drop 1).dropLast)⟩
  | .ident => .ok (identToken span (String.ofList cs))
  | .int => intToken span cs
  | .float => floatToken span cs

/-- The modes after a token: `<` opens a reference, `:` goes on to its spec, brackets inside it
hold a time index, and `>` closes it. -/
def modesAfter (modes : List Mode) (t : Token) : List Mode :=
  match t.char?, modes with
  | some '<', _ => .bracket :: modes
  | some ':', .bracket :: outer => .spec :: outer
  | some '[', .bracket :: _ | some '[', .spec :: _ => .timeSpec :: modes
  | some ']', .timeSpec :: outer => outer
  | some '>', .bracket :: outer | some '>', .spec :: outer => outer
  | _, _ => modes

/-- Why no lexeme starts the text: a character that none can have there, or the end of the text
inside a lexeme. -/
def stuck (s : Scanner) (taken : Nat) : ParseError :=
  match s.rest[taken]? with
  | some c => .lexical (.single (s.offset + taken)) c.toString
  | none => .unexpectedEnd (.single (s.offset + s.rest.length))

/-- The next token. At the end of the text it is the end token, as often as one asks. -/
def next (s : Scanner) : Except ParseError Token × Scanner :=
  if s.rest.isEmpty then (.ok (.finish s.offset), s)
  else
    let m := munch s.mode s.rest
    let read := { s.stats with chars := s.stats.chars + m.taken }
    match m.best with
    | none => (.error (s.stuck m.taken), { s with stats := read })
    | some (size, lexeme) =>
      let stats := if size < m.taken then { read with rewinds := read.rewinds + 1 } else read
      let span : Span := ⟨s.offset, s.offset + size - 1⟩
      match token span (s.rest.take size) lexeme with
      | .error e => (.error e, { s with stats := stats })
      | .ok t =>
        (.ok t,
          { rest := s.rest.drop size
            offset := s.offset + size
            modes := modesAfter s.modes t
            stats := { stats with tokens := stats.tokens + 1 } })

def drainFrom : Nat → Scanner → List (Except ParseError Token × Scanner)
  | 0, _ => []
  | fuel + 1, s =>
    let (result, after) := s.next
    match result with
    | .error _ => [(result, after)]
    | .ok t => if t.isEnd then [(result, after)] else (result, after) :: drainFrom fuel after

/-- Every token of the rest of the text. A token takes at least one character, so one step more
than there are characters reaches the end token. -/
def drain (s : Scanner) : List (Except ParseError Token × Scanner) :=
  drainFrom (s.rest.length + 1) s

def scanAll (s : Scanner) (text : String) : Except ParseError (List Token) × Scanner :=
  let run := (s.setInput text).drain
  (run.mapM (·.1), (run.getLast?.map (·.2)).getD s)

end Scanner

end CanonicalLR

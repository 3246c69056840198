import CanonicalLR.GrammarFile.Error
import CanonicalLR.Text.Lines

/-! The words of a grammar file, line by line. The longest word counts: a name with a colon is a
label, two dashes start a comment, and a percent sign with small letters is a directive. -/

namespace CanonicalLR.GrammarFile

open CanonicalLR.Text

inductive WordKind where
  | arrow
  | label
  | atom
  | var
  | directive
  | number
  | sym
deriving DecidableEq

structure Word where
  kind : WordKind
  chars : List Char
deriving DecidableEq

def Word.text (w : Word) : String := String.ofList w.chars

def isGap (c : Char) : Bool := c == ' ' || c == '\t' || c == '\x0c' || c == '\r'

def isNameChar (c : Char) : Bool := c.isAlphanum || c == '_'

def symChars : List Char :=
  ['-', '~', '\x60', '!', '@', '#', '$', '%', '^', '&', '*', '+', '=', '|', '\\', '<', '>', '?',
    '/', ';', '(', ')', '[', ']', '\x7b', '\x7d', ',', '.', '\x27', '"', ':']

def wordAt (c : Char) (rest : List Char) : Option (WordKind × Nat) :=
  let name := (rest.takeWhile isNameChar).length
  if c.isLower then
    if rest[name]? = some ':' then some (.label, name + 2) else some (.atom, name + 1)
  else if c.isUpper then some (.var, name + 1)
  else if c.isDigit then some (.number, (rest.takeWhile Char.isDigit).length + 1)
  else if c = '%' && (rest.head?.map Char.isLower).getD false then
    some (.directive, (rest.takeWhile Char.isLower).length + 1)
  else if c = '-' && rest.head? = some '>' then some (.arrow, 2)
  else if symChars.contains c then some (.sym, 1)
  else none

/-- The words of the rest of a line. A comment ends the line, but not directly behind a word. -/
def wordsFrom (line : Nat) : Nat → Bool → List Char → Except GrammarFileError (List Word)
  | 0, _, _ => .ok []
  | _, _, [] => .ok []
  | fuel + 1, afterWord, c :: rest =>
    if isGap c then wordsFrom line fuel false rest
    else if c = '-' && rest.head? = some '-' then
      if afterWord then .error (.inLine line .gluedComment) else .ok []
    else
      match wordAt c rest with
      | none => .error (.inLine line (.unexpected c))
      | some (kind, size) =>
        (wordsFrom line fuel true ((c :: rest).drop size)).map
          (⟨kind, (c :: rest).take size⟩ :: ·)

def words (line : Nat) (text : List Char) : Except GrammarFileError (List Word) :=
  wordsFrom line text.length false text

def numberedWords (entry : List Char × Nat) : Except GrammarFileError (Nat × List Word) :=
  (words entry.2 entry.1).map (entry.2, ·)

def wordLines (source : List Char) : Except GrammarFileError (List (Nat × List Word)) := do
  let lines ← ((fields '\n' source).zipIdx 1).mapM numberedWords
  .ok (lines.filter fun entry => !entry.2.isEmpty)

end CanonicalLR.GrammarFile

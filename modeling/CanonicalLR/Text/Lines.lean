/-! Cutting a sequence at a separator, and a text into lines. A line ends at a line feed, with or
without a carriage return before it; what follows the last line feed is a line only if it is not
empty. -/

namespace CanonicalLR.Text

def prepend {α : Type} (x : α) : List (List α) → List (List α)
  | [] => [[x]]
  | piece :: pieces => (x :: piece) :: pieces

/-- The pieces between the separators; one more piece than there are separators. -/
def fields {α : Type} [DecidableEq α] (separator : α) (xs : List α) : List (List α) :=
  xs.foldr (fun x pieces => if x = separator then [] :: pieces else prepend x pieces) [[]]

/-- The pieces that a separator ends, and the last piece if it is not empty. -/
def pieces {α : Type} [DecidableEq α] (separator : α) (xs : List α) : List (List α) :=
  let all := fields separator xs
  if all.getLast? = some [] then all.dropLast else all

def dropReturn (line : List Char) : List Char :=
  if line.getLast? = some '\r' then line.dropLast else line

def linesOfFields : List (List Char) → List (List Char)
  | [] => []
  | [last] => if last.isEmpty then [] else [last]
  | line :: rest => dropReturn line :: linesOfFields rest

def lines (cs : List Char) : List (List Char) :=
  linesOfFields (fields '\n' cs)

def unlines (texts : List String) : String :=
  String.join (texts.map (· ++ "\n"))

end CanonicalLR.Text

import CanonicalLR.Text.Lines

/-! Files as the commands see them: a text can be read, or put in the place of an older one, and
both may fail for a reason that the system gives. A directory that holds files only is such a
system, and its paths are resolved here. -/

namespace CanonicalLR.CommandLine

open CanonicalLR.Text

inductive FileError where
  | noSuchFile
  | permissionDenied
  | notDirectory
  | isDirectory
  | nameTooLong
  | other (reason : String)

def FileError.message : FileError → String
  | .noSuchFile => "No such file or directory (os error 2)"
  | .permissionDenied => "Permission denied (os error 13)"
  | .notDirectory => "Not a directory (os error 20)"
  | .isDirectory => "Is a directory (os error 21)"
  | .nameTooLong => "File name too long (os error 36)"
  | .other reason => reason

class Files (m : Type → Type) where
  read : String → m (Except FileError String)
  write : String → String → m (Except FileError Unit)

/-- One directory without others inside it: the names of its files with their texts. It is its own
parent, as the top of a file system is. -/
structure Directory where
  entries : List (String × String) := []

namespace Directory

def get? (d : Directory) (name : String) : Option String := d.entries.lookup name

def put (d : Directory) (name text : String) : Directory :=
  ⟨(name, text) :: d.entries.filter fun e => e.1 != name⟩

/-- What a path leads to: the directory itself, or the place of a file, which need not exist yet.
A path that goes on with slashes after a name asks for a directory of that name. -/
inductive Place where
  | here
  | file (name : String)
  | inside (name : String)

def stays (step : List Char) : Bool :=
  step.isEmpty || step == ['.'] || step == ['.', '.']

def maxPathBytes : Nat := 4095

def maxNameBytes : Nat := 255

/-- Resolves a path. No step leads on from a file, nor from a name that is not there. -/
def locate (d : Directory) (path : String) : Except FileError Place :=
  if path.utf8ByteSize > maxPathBytes then .error .nameTooLong
  else
    match (fields '/' path.toList).dropWhile stays with
    | [] => .ok .here
    | step :: rest =>
      let name := String.ofList step
      if name.utf8ByteSize > maxNameBytes then .error .nameTooLong
      else if rest.isEmpty then .ok (.file name)
      else if rest.all (·.isEmpty) then .ok (.inside name)
      else if (d.get? name).isSome then .error .notDirectory
      else .error .noSuchFile

def textAt (d : Directory) (path : String) : Except FileError String := do
  match ← d.locate path with
  | .here => .error .isDirectory
  | .inside name => .error (if (d.get? name).isSome then .notDirectory else .noSuchFile)
  | .file name =>
    match d.get? name with
    | some text => .ok text
    | none => .error .noSuchFile

def withText (d : Directory) (path text : String) : Except FileError Directory := do
  match ← d.locate path with
  | .here | .inside _ => .error .isDirectory
  | .file name => .ok (d.put name text)

instance : Files (StateM Directory) where
  read path := do return (← get).textAt path
  write path text := do
    match (← get).withText path text with
    | .error e => return .error e
    | .ok d =>
      set d
      return .ok ()

end Directory

end CanonicalLR.CommandLine

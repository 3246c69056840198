import CanonicalLR.CommandLine.Run

/-! The command line: `eval`, `tables` and `compile` on the files of the system. -/

namespace CanonicalLR.CommandLine

/-- The number of a system error, which some calls report negated. -/
def errorNumber (code : UInt32) : UInt32 := min code (0 - code)

def FileError.ofSystem : IO.Error → FileError
  | .noFileOrDirectory .. => .noSuchFile
  | .permissionDenied .. => .permissionDenied
  | .inappropriateType _ code _ => if errorNumber code == 20 then .notDirectory else .isDirectory
  | .invalidArgument _ code text =>
    if errorNumber code == 36 then .nameTooLong
    else .other s!"{text} (os error {errorNumber code})"
  | e => .other (toString e)

def attempt {α : Type} (act : IO α) : IO (Except FileError α) := do
  try return .ok (← act)
  catch e => return .error (.ofSystem e)

instance : Files IO where
  read path := attempt (IO.FS.readFile path)
  write path text := attempt (IO.FS.writeFile path text)

end CanonicalLR.CommandLine

open CanonicalLR.CommandLine in
def main (words : List String) : IO UInt32 := do
  let finish ← run words
  finish.out.forM IO.println
  finish.err.forM IO.eprintln
  return UInt32.ofNat finish.code

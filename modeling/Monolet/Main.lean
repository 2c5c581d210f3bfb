import Monolet.CommandLine.Run

/-!
# The program

Reads the named file, runs the command line and writes what it yields.
-/

namespace Monolet.CommandLine

/-- More steps than any evaluation takes in practice. -/
def patience : Nat := 0x4000000000000000

/-- The contents of a file, or why there are none. -/
def readSource (path : String) : IO (Except ReadFailure String) := do
  try
    return .ok (← IO.FS.readFile path)
  catch
    | .noFileOrDirectory .. => return .error .notFound
    | .inappropriateType .. => return .error .isDirectory
    | e => return .error (.other (toString e))

end Monolet.CommandLine

open Monolet.CommandLine in
/-- Run the command line and return its exit code. -/
def main (args : List String) : IO UInt32 := do
  let result ← match request args with
    | .error e => pure e.refuse
    | .ok r =>
      let contents ← match r.file? with
        | some path => readSource path
        | none => pure (.error .notFound)
      pure (r.answer patience contents)
  IO.print result.stdout
  IO.eprint result.stderr
  return result.exit

/-
  The program `treewalk`: run a program tree from a file.
-/
import Treewalk.CommandLine
import Treewalk.Text.Utf8

namespace Treewalk

/-- Read a file. -/
def readProgram (path : String) : IO FileContent := do
  try
    match Utf8.decode? (← IO.FS.readBinFile path) with
    | some content => return .text content
    | none => return .unreadable "stream did not contain valid UTF-8"
  catch
    | .noFileOrDirectory .. => return .missing
    | .inappropriateType _ code details => return .unreadable s!"{details} (os error {code})"
    | .permissionDenied _ code details => return .unreadable s!"{details} (os error {code})"
    | error => return .unreadable (toString error)

end Treewalk

open Treewalk in
/-- Answer a command line. -/
def main (args : List String) : IO UInt32 := do
  let answer ← Command.answer "treewalk" args readProgram
  (← IO.getStdout).write answer.output
  (← IO.getStdout).flush
  IO.eprint answer.errors
  return answer.code.toUInt32

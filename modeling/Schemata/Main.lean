import Schemata.Command.Run

/-!
# The program

Reads the source that the arguments name, or the standard input, and prints what `respond` says.
-/

namespace Schemata

/-- The error of a failed read.  The code of the system comes with either sign. -/
def ReadError.ofSystem : IO.Error → ReadError
  | .noFileOrDirectory .. => .missing
  | .inappropriateType _ code _ =>
    if code = 20 || code = -20 then .notDirectory else .isDirectory
  | .invalidArgument (some path) code details =>
    if code = 36 || code = -36 then .nameTooLong
    else .other (toString (IO.Error.invalidArgument (some path) code details))
  | e => .other (toString e)

/-- Reads a file, or the standard input. -/
def readBytes (file : Option String) : IO (Except ReadError ByteArray) := do
  try
    match file with
    | some path => return .ok (← IO.FS.readBinFile path)
    | none => return .ok (← (← IO.getStdin).readBinToEnd)
  catch e => return .error (.ofSystem e)

end Schemata

open Schemata in
/-- Runs the program with its arguments. -/
def main (args : List String) : IO UInt32 := do
  let terminal ← (← IO.getStdin).isTty
  let outcome ← (Invocation.ofArguments args).respond readBytes terminal
  (← IO.getStdout).putStr outcome.out
  (← IO.getStderr).putStr outcome.err
  return outcome.exitCode

import Lexis.Command

/-!
# The program

Reads the arguments, the environment and the file, and writes the outcome.
-/

namespace Lexis

/-- Reads the bytes of a file. -/
def readBytes (path : String) : IO (Except ReadFailure ByteArray) := do
  try
    return .ok (← IO.FS.readBinFile path)
  catch
    | .noFileOrDirectory .. => return .error .missing
    | .permissionDenied .. => return .error .denied
    | .inappropriateType _ code _ =>
      return .error (if code = 21 then .isDirectory else .notDirectory)
    | error => return .error (.system (toString error))

end Lexis

/-- Runs the command that the arguments ask for. -/
def main (arguments : List String) : IO UInt32 := do
  let environment ← IO.getEnv Lexis.Config.environmentVariable
  let outcome ← (Lexis.Command.ofArguments environment arguments).run Lexis.readBytes
  IO.print outcome.stdout
  IO.eprint outcome.stderr
  return outcome.exitCode.toUInt32

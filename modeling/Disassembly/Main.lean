import Disassembly.Command

/-!
# The program

Files, standard output and the exit code of the command.
-/

namespace Disassembly

/-- The system's account of a failed read. Errors without a code do not come from the
    system, so it has none to give of them. -/
def ReadError.ofSystem? : IO.Error → Option ReadError
  | .otherError code details | .resourceBusy code details | .resourceVanished code details
  | .unsupportedOperation code details | .hardwareFault code details
  | .unsatisfiedConstraints code details | .illegalOperation code details
  | .protocolError code details | .timeExpired code details
  | .alreadyExists _ code details | .interrupted _ code details
  | .noFileOrDirectory _ code details | .invalidArgument _ code details
  | .permissionDenied _ code details | .resourceExhausted _ code details
  | .inappropriateType _ code details | .noSuchThing _ code details =>
      some ⟨details, code.toNat⟩
  | .unexpectedEof | .userError _ => none

def readImage (path : String) : IO (Except ReadError Image) := do
  try
    let file ← IO.FS.Handle.mk path .read
    return .ok (← file.readBinToEnd).toList
  catch e =>
    -- Opening and reading fail with a code; anything else is no failed read and is passed on.
    match ReadError.ofSystem? e with
    | some error => return .error error
    | none => throw e

end Disassembly

/-- Run the command and hand its outcome to the system. -/
def main (arguments : List String) : IO UInt32 := do
  let outcome ← Disassembly.command Disassembly.readImage arguments
  IO.print outcome.stdout
  IO.eprint outcome.stderr
  return outcome.exitCode

import Disassembly.Presentation.Rendering

/-!
# The command line

The first argument is the path of the image, whatever it looks like. Each later
argument names a format, of which the last counts, or drops the header. The
arguments are checked before the image is read.
-/

namespace Disassembly

/-- What the arguments ask for. -/
structure Invocation where
  path : String
  format : Format := .text
  header : Bool := true
deriving DecidableEq, Repr

/-- Why the arguments ask for nothing. -/
inductive UsageError where
  | noPath
  | unknownFormat (argument : String)
deriving DecidableEq, Repr

def UsageError.message : UsageError → String
  | noPath => "Usage: vmdis <image_path> [html|text|ansi] [--no-header]"
  | unknownFormat argument =>
      "Unknown format '" ++ argument ++ "'. Supported: html, text, ansi"

namespace Invocation

/-- Take one argument after the path into account. -/
def refine (invocation : Invocation) (argument : String) : Except UsageError Invocation :=
  if argument = "--no-header" then
    .ok { invocation with header := false }
  else
    match Format.ofName? argument with
    | some format => .ok { invocation with format }
    | none => .error (.unknownFormat argument)

/-- The invocation that the arguments describe. -/
def parse : List String → Except UsageError Invocation
  | [] => .error .noPath
  | path :: arguments => arguments.foldlM refine { path }

end Invocation

/-- Why a file cannot be read, as the system puts it. -/
structure ReadError where
  description : String
  code : Nat
deriving DecidableEq, Repr

def ReadError.message (e : ReadError) : String :=
  e.description ++ " (os error " ++ toString e.code ++ ")"

structure Outcome where
  exitCode : UInt32 := 0
  stdout : String := ""
  stderr : String := ""
deriving DecidableEq, Repr

namespace Outcome

/-- The command ends with a line of explanation. -/
def failed (exitCode : UInt32) (line : String) : Outcome :=
  { exitCode, stderr := line ++ "\n" }

def ofRendering (rendering : Rendering) : Outcome :=
  match rendering.failure with
  | none => { stdout := rendering.output }
  | some e =>
      { failed 1 ("failed to disassemble image: " ++ e.message) with stdout := rendering.output }

/-- The outcome of an invocation whose image has been looked up. -/
def ofImage (invocation : Invocation) : Except ReadError Image → Outcome
  | .error e => failed 1 ("Failed to read image '" ++ invocation.path ++ "': " ++ e.message)
  | .ok image =>
      ofRendering (render (.forFormat invocation.format invocation.header) image).value

end Outcome

/-- Run the command with these arguments, where `read` looks an image up by its path. -/
def command {m : Type → Type} [Monad m] (read : String → m (Except ReadError Image))
    (arguments : List String) : m Outcome :=
  match Invocation.parse arguments with
  | .error e => return .failed 2 e.message
  | .ok invocation => return .ofImage invocation (← read invocation.path)

end Disassembly

import Ysh.CommandLine

/-!
# The Command

Reads what the arguments name, runs, and writes the outcome. All that happens here
is input and output.

## Main definitions

* `main`: The command.
-/

namespace Ysh

/-- A script file's text. -/
def readScript (path : String) : IO (Except SourceFault String) := do
  try
    return .ok (← IO.FS.readFile path)
  catch
    | .noFileOrDirectory .. => return .error (.noSuchFile path)
    | error => return .error (.unreadableFile path (toString error))

/-- The text of the standard input. -/
def readInput : IO (Except SourceFault String) := do
  let input ← IO.getStdin
  if ← input.isTty then return .error .noScript
  try
    return .ok (← input.readToEnd)
  catch error => return .error (.unreadableInput (toString error))

/-- The source that an invocation names. A script on the command line wins over a
    file, and a file over the standard input. -/
def Invocation.readSource (i : Invocation) : IO (Except SourceFault String) :=
  match i.script, i.file with
  | some script, _ => return .ok script
  | none, some path => readScript path
  | none, none => readInput

end Ysh

/-- The command. -/
def main (arguments : List String) : IO UInt32 := do
  let some invocation := Ysh.Invocation.ofArguments? arguments
    | IO.eprintln "usage: ysh-parse [-c SCRIPT] [--json] [--print] [--strict] [FILE]"
      return 2
  let outcome := invocation.run (← invocation.readSource)
  IO.eprint outcome.errors
  IO.print outcome.output
  return outcome.status.toUInt32

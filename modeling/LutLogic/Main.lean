import LutLogic.Command.Tool

/-!
# The program

Reads the configuration file, runs the tool and prints what it gives.
-/

namespace LutLogic.Command

/-- The fault that a failed attempt to read a file shows. -/
def FileFault.ofError : IO.Error → FileFault
  | .noFileOrDirectory .. => .notFound
  | .inappropriateType .. => .isDirectory
  | e => .stated (toString e)

/-- Reads a file. -/
def readFile (name : String) : IO (Except FileFault String) := do
  try
    return .ok (← IO.FS.readFile name)
  catch e =>
    return .error (.ofError e)

end LutLogic.Command

open LutLogic LutLogic.Command in
/-- Runs the tool with the arguments of the program. -/
def main (args : List String) : IO UInt32 := do
  let wanted := (Invocation.ofList? args).bind fun i => i.options.config
  let file ← readFile (wanted.getD Settings.fileName)
  let outcome := Outcome.ofArguments args fun _ => file
  IO.print outcome.output
  IO.eprint outcome.message
  return UInt32.ofNat outcome.exitCode

import ScopedClauses.Command.Run

/-!
The program: command line, files and standard streams.
-/

namespace ScopedClauses

def readFile? (path : String) : IO (Option String) := do
  try
    return some (← IO.FS.readFile path)
  catch _ =>
    return none

def readStandardInput : IO String := do
  (← IO.getStdin).readToEnd

end ScopedClauses

def main (arguments : List String) : IO UInt32 := do
  let outcome ← ScopedClauses.Command.run ScopedClauses.readFile?
    ScopedClauses.readStandardInput arguments
  match outcome.envelope with
  | some envelope => IO.println envelope.compact
  | none => pure ()
  return outcome.exitCode.toUInt32

import ResourceQuery.CommandLine.Basic

/-!
# The program

Reads standard input if the command needs it, and prints what the command line
says.
-/

open ResourceQuery

/-- The entry point of the program. -/
def main (args : List String) : IO UInt32 := do
  let outcome ←
    match CommandLine.command args with
    | .error outcome => pure outcome
    | .ok command =>
      let stdin ← if command.needsInput then do (← IO.getStdin).readBinToEnd else pure .empty
      pure (CommandLine.outcome command stdin)
  (← IO.getStdout).putStr outcome.stdout
  (← IO.getStderr).putStr outcome.stderr
  return UInt32.ofNat outcome.exitCode

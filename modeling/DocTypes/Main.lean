import DocTypes.Command.Invocation

set_option autoImplicit false

/-!
# The program
-/

open DocTypes

def main (arguments : List String) : IO UInt32 := do
  let outcome := Command.run (arguments.map String.toList)
  (← IO.getStdout).putStr (String.ofList outcome.stdout)
  (← IO.getStderr).putStr (String.ofList outcome.stderr)
  return outcome.exit.toUInt32

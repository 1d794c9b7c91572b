import InfixCalculator.Session

/-!
# The command line

Runs a session on the standard streams.
-/

namespace InfixCalculator

/-- Shows the prompt, reads a line and writes the reply, until the session ends. -/
partial def interact (input output errors : IO.FS.Stream) : IO Unit := do
  output.putStr Session.prompt
  output.flush
  let line ← input.getLine
  if line.isEmpty then return
  match Session.reply line.toList with
  | .stop => return
  | .value text => output.putStr text
  | .failure text => errors.putStr text
  interact input output errors

end InfixCalculator

def main : IO UInt32 := do
  InfixCalculator.interact (← IO.getStdin) (← IO.getStdout) (← IO.getStderr)
  return InfixCalculator.Session.exitCode

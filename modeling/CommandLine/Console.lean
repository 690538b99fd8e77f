import CommandLine.Program.Run

/-!
# The console

A program whose commands answer with actions, run on the arguments of a process.
-/

namespace CommandLine

/-- Runs a program whose commands answer with an action that yields the exit code. -/
def Program.runConsole (program : Program (Command (IO UInt32))) (arguments : List String) :
    IO UInt32 :=
  match program.run (arguments.map String.toList) with
  | .completed action => action
  | .exited code output error => do
    IO.print (String.ofList output)
    IO.eprint (String.ofList error)
    return code.toUInt32

end CommandLine

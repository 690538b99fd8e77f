import CommandLine.Program.Dispatch
import CommandLine.Usage.Page

/-!
# Running a program

A run on a list of tokens gives the answer of a command, or a refusal that shows the usage page. A
whole run of a program reads its definitions first; if one of them is refused, the run reports that
and ends.

* `Program.usage`: the usage page as one message.
* `Program.respond`: a run on a list of tokens.
* `Program.run`: a whole run, with what it writes.
-/

namespace CommandLine

variable {ρ : Type}

/-- A run that no command answers: the message that it shows, and its exit code. -/
structure Refusal where
  message : Text
  exitCode : Nat
  deriving DecidableEq, Repr

namespace Program

/-- The usage page, at the standard width. -/
def usage (program : Program (Prepared ρ)) : Text :=
  Text.joinLines (usageLines Width.standard program)

/-- The answer of a command, or the refusal with the usage page. -/
def respond (program : Program (Prepared ρ)) (tokens : List Text) : Except Refusal ρ :=
  match program.dispatch tokens with
  | some result => .ok result
  | none => .error ⟨program.usage, 1⟩

end Program

/-- How a whole run ends. -/
inductive Outcome (ρ : Type) where
  /-- A command answered. -/
  | completed (result : ρ)
  /-- The run ended with an exit code, having written to its standard output and to its standard
      error. -/
  | exited (code : Nat) (output error : Text)

/-- A whole run of the program on its arguments. Every message ends with a line feed. -/
def Program.run (program : Program (Command ρ)) (arguments : List Text) : Outcome ρ :=
  match program.prepare with
  | .error invalid => .exited 1 [] (invalid.message.toList ++ ['\n'])
  | .ok prepared =>
    match prepared.respond arguments with
    | .ok result => .completed result
    | .error refusal => .exited refusal.exitCode (refusal.message ++ ['\n']) []

end CommandLine

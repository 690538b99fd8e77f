import CommandLine.Declaration.Basic
import CommandLine.Definition.Mistake

/-!
# Segments

A segment declares one form: `--name` or `-n`, with the mark `=` behind it if the option takes a
value, or the name of an argument, with or without angle brackets.

* `Segment.read`: the form that a text declares.
-/

namespace CommandLine

/-- A form with its value mark. -/
structure Segment where
  form : Form
  takesValue : Bool
  deriving DecidableEq, Repr

namespace Segment

/-- The form after its dashes: its name, then the mark `=` if there is one. -/
def readMarked (kind : Kind) (body : Text) : Except Mistake Segment :=
  let (name, takesValue) :=
    match Text.dropLast? '=' body with
    | some name => (name, true)
    | none => (body, false)
  if name = [] then .error .emptyName else .ok ⟨⟨kind, name⟩, takesValue⟩

/-- The name of an argument without its angle brackets, of which there are two or none. -/
def withoutAngles (body : Text) : Except Mistake Text :=
  match body with
  | '<' :: inner =>
    match Text.dropLast? '>' inner with
    | some name => .ok name
    | none => .error (.missingClosingAngle body)
  | _ => if body.getLast? = some '>' then .error (.missingOpeningAngle body) else .ok body

/-- An argument, which takes no value. -/
def readArgument (body : Text) : Except Mistake Segment :=
  if body.getLast? = some '=' then .error .argumentValue
  else match withoutAngles body with
    | .error mistake => .error mistake
    | .ok name => if name = [] then .error .emptyName else .ok ⟨⟨.argument, name⟩, false⟩

/-- The form that a text declares. A text with three dashes is refused, but only once it is known
    to have a name. -/
def read (text : Text) : Except Mistake Segment :=
  match text with
  | '-' :: '-' :: '-' :: body =>
    match readMarked .long body with
    | .error mistake => .error mistake
    | .ok _ => .error .longAndShort
  | '-' :: '-' :: body => readMarked .long body
  | '-' :: body => readMarked .short body
  | body => readArgument body

end Segment

end CommandLine

import CommandLine.Text.Basic
import CommandLine.Definition.Mistake

/-!
# Optional groups

Square brackets around the tokens of a definition make an optional group. At most one group is open
at a time, and a token opens it with its first character or closes it with its last one. Groups are
numbered from one, in the order in which they open.

* `Brackets.peel`: takes the brackets off a token.
-/

namespace CommandLine

/-- Where in the brackets of a definition a token stands. -/
structure Brackets where
  /-- Whether a group is open. -/
  isOpen : Bool := false
  /-- How many groups have been opened so far. A counter of 32 bits shows the same number as long as
      there are fewer than 2 ^ 32 groups. -/
  opened : Nat := 0
  deriving DecidableEq, Repr

namespace Brackets

/-- The group that a token at this place belongs to: the open one, which was opened last. -/
def group? (brackets : Brackets) : Option Nat :=
  if brackets.isOpen then some brackets.opened else none

/-- Takes off an opening bracket, which is refused while a group is open. -/
def enter (brackets : Brackets) (token : Text) : Except Mistake (Brackets × Text) :=
  match token with
  | '[' :: body =>
    if brackets.isOpen then .error .nestedOptionals
    else .ok ({ isOpen := true, opened := brackets.opened + 1 }, body)
  | body => .ok (brackets, body)

/-- Takes off a closing bracket, which is refused while no group is open. -/
def leave (brackets : Brackets) (token : Text) : Except Mistake (Brackets × Text) :=
  match Text.dropLast? ']' token with
  | some body =>
    if brackets.isOpen then .ok ({ brackets with isOpen := false }, body)
    else .error .unopenedOptional
  | none => .ok (brackets, token)

/-- Takes off both brackets of a token: the place after it, its group and its body. -/
def peel (brackets : Brackets) (token : Text) :
    Except Mistake (Brackets × Option Nat × Text) :=
  match brackets.enter token with
  | .error mistake => .error mistake
  | .ok (inside, body) => (inside.leave body).map fun (after, body) => (after, inside.group?, body)

end Brackets

end CommandLine

import CommandLine.Registry.Basic
import CommandLine.Matching.Misfit
import CommandLine.Matching.Groups

/-!
# Allocation of positional tokens

Every mandatory argument receives a token, and so does every argument of a group that is served.
The tokens are handed out in the order of declaration, and what is left over remains.

* `Registry.slots`: the arguments that receive a token.
* `Registry.allocate`: the tokens of the arguments, and the remaining ones.
-/

namespace CommandLine

/-- The tokens that the arguments received, and those that remain. -/
structure Allocation where
  assigned : List (Text × Text)
  remaining : List Text
  deriving DecidableEq, Repr

/-- Hands out one token per name, in order. -/
def handOut : List Text → List Text → Except Misfit Allocation
  | [], tokens => .ok ⟨[], tokens⟩
  | name :: _, [] => .error (.argumentMissing name)
  | name :: names, token :: tokens =>
    (handOut names tokens).map fun rest => { rest with assigned := (name, token) :: rest.assigned }

namespace Registry

/-- The arguments, in the order of declaration. -/
def arguments (registry : Registry) : List Declaration :=
  registry.options.filter Declaration.isArgument

/-- How many arguments are mandatory. -/
def mandatoryCount (registry : Registry) : Nat :=
  registry.arguments.countP fun argument => !argument.isOptional

/-- The groups that are served when there are `supply` positional tokens. -/
def chosen (registry : Registry) (supply : Nat) : List ArgumentGroup :=
  chooseGroups (supply - registry.mandatoryCount) (Layout.ofArguments registry.arguments).ranked

/-- The names of the arguments that receive one of `supply` tokens: the mandatory ones and those in
    groups that are served. -/
def slots (registry : Registry) (supply : Nat) : List Text :=
  let served := (registry.chosen supply).map ArgumentGroup.number
  (registry.arguments.filter fun argument =>
    match argument.group with
    | none => true
    | some number => served.contains number).map Declaration.name

/-- The tokens of the arguments, and the remaining ones. -/
def allocate (registry : Registry) (tokens : List Text) : Except Misfit Allocation :=
  handOut (registry.slots tokens.length) tokens

end Registry

end CommandLine

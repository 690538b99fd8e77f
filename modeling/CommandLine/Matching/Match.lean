import CommandLine.Matching.Scan
import CommandLine.Matching.Allocation

/-!
# Matching

A list of tokens matches a registry if every option token fits, there are tokens for all mandatory
arguments, and no other mandatory option is missing. The match binds each option under all its
names; only the optional arguments that received no token stay out.

* `Registry.fit`: the match, or the reason why there is none.
* `Match.flag?`, `Match.count?`, `Match.text?`: the values by name.
-/

namespace CommandLine

/-- The bindings of a match, and the positional tokens that no argument received. -/
structure Match where
  bindings : List (Text × Binding)
  remaining : List Text
  deriving DecidableEq, Repr

namespace Match

/-- What a name is bound to. -/
def get? (found : Match) (name : Text) : Option Binding := found.bindings.lookup name

/-- Whether a name is bound. -/
def contains (found : Match) (name : Text) : Bool := (found.get? name).isSome

/-- The state of a long switch. -/
def flag? (found : Match) (name : Text) : Option Bool := (found.get? name).bind Binding.flag?

/-- The number of occurrences of a short switch. -/
def count? (found : Match) (name : Text) : Option Nat := (found.get? name).bind Binding.count?

/-- The text of a value or of an argument. -/
def text? (found : Match) (name : Text) : Option Text := (found.get? name).bind Binding.text?

end Match

namespace Declaration

/-- What the command line binds an option to: an argument to its token, any other option to what its
    occurrences amount to. -/
def bound? (option : Declaration) (occurrences : List Occurrence) (assigned : List (Text × Text)) :
    Option Binding :=
  if option.isArgument then (assigned.lookup option.name).map .positional
  else Binding.ofReadings (readingsOf option.name occurrences)

/-- The same binding under all names of an option. -/
def spread (option : Declaration) (binding : Binding) : List (Text × Binding) :=
  option.names.map fun name => (name, binding)

/-- The bindings of an option under all its names: what the command line binds it to, or its default
    if it may be left out. -/
def bindNames (option : Declaration) (occurrences : List Occurrence)
    (assigned : List (Text × Text)) : Except Misfit (List (Text × Binding)) :=
  match option.bound? occurrences assigned with
  | some binding => .ok (option.spread binding)
  | none =>
    if option.isOptional then .ok (option.default?.elim [] option.spread)
    else .error (.optionMissing option.name)

/-- The bindings of all options, up to the first mandatory one that is missing. -/
def bindAll (occurrences : List Occurrence) (assigned : List (Text × Text)) :
    List Declaration → Except Misfit (List (Text × Binding))
  | [] => .ok []
  | option :: options =>
    match option.bindNames occurrences assigned with
    | .error reason => .error reason
    | .ok bindings => (bindAll occurrences assigned options).map (bindings ++ ·)

end Declaration

namespace Registry

/-- The match of a command line that was read into these pieces, or the reason why there is none. -/
def fitPieces (registry : Registry) (pieces : List Piece) : Except Misfit Match :=
  match registry.allocate (positionals pieces) with
  | .error reason => .error reason
  | .ok ⟨assigned, remaining⟩ =>
    (Declaration.bindAll (occurrences pieces) assigned registry.options).map fun bindings =>
      ⟨bindings, remaining⟩

/-- The match of a list of tokens, or the reason why there is none. -/
def fit (registry : Registry) (tokens : List Text) : Except Misfit Match :=
  match registry.scan tokens with
  | .error reason => .error reason
  | .ok pieces => registry.fitPieces pieces

end Registry

end CommandLine

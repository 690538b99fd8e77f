import CommandLine.Declaration.Basic

/-!
# Occurrences of options

Each time a command line mentions an option, it says one of three things about it. What the option
is bound to depends on its own occurrences only, in the order in which they were read.

* `Binding.ofReadings`: the binding that the occurrences of one option amount to.
-/

namespace CommandLine

/-- What one occurrence says. -/
inductive Reading where
  /-- A long form of an option without value: it is switched on. -/
  | switched
  /-- The value of the option. -/
  | given (value : Text)
  /-- One more occurrence of a short form. -/
  | counted
  deriving DecidableEq, Repr

/-- An occurrence of the option with this primary name. -/
structure Occurrence where
  owner : Text
  reading : Reading
  deriving DecidableEq, Repr

namespace Binding

/-- The binding after one more occurrence. A count goes on from a count, and the last form wins
    otherwise. -/
def after (previous : Option Binding) : Reading → Binding
  | .switched => .flag true
  | .given text => .value (some text)
  | .counted =>
    match previous with
    | some (.count occurrences) => .count (occurrences + 1)
    | _ => .count 1

/-- The binding that the occurrences amount to; without any there is none. -/
def ofReadings (readings : List Reading) : Option Binding :=
  readings.foldl (fun previous reading => some (after previous reading)) none

@[simp] theorem ofReadings_nil : ofReadings [] = none := rfl

/-- The last occurrence acts on what the ones before it amount to. -/
theorem ofReadings_append_singleton (readings : List Reading) (reading : Reading) :
    ofReadings (readings ++ [reading]) = some (after (ofReadings readings) reading) := by
  simp [ofReadings]

theorem ofReadings_eq_none_iff {readings : List Reading} :
    ofReadings readings = none ↔ readings = [] := by
  rcases List.eq_nil_or_concat readings with rfl | ⟨front, last, rfl⟩
  · simp
  · simp [ofReadings_append_singleton]

end Binding

/-- What the occurrences of the option `owner` say, in order. -/
def readingsOf (owner : Text) (occurrences : List Occurrence) : List Reading :=
  (occurrences.filter fun occurrence => occurrence.owner = owner).map Occurrence.reading

end CommandLine

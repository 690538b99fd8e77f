import CommandLine.Text.Basic

/-!
# Mistakes in definitions

Each way in which a definition can be refused, with the name or the text that is at fault.
-/

namespace CommandLine

/-- A mistake in a definition. -/
inductive Mistake where
  /-- A form without a name. -/
  | emptyName
  /-- A form that starts with three dashes. -/
  | longAndShort
  /-- An argument with the mark `=`. -/
  | argumentValue
  /-- A closing bracket while no group is open. -/
  | unopenedOptional
  /-- An opening bracket while a group is open. -/
  | nestedOptionals
  /-- A group that is still open at the end. -/
  | unclosedOptional
  /-- An argument that starts with `<` and does not end with `>`. -/
  | missingClosingAngle (text : Text)
  /-- An argument that ends with `>` and does not start with `<`. -/
  | missingOpeningAngle (text : Text)
  /-- A name that an earlier form of the definition has, too. -/
  | duplicateName (name : Text)
  /-- An alias with a name that its option already has. -/
  | duplicateAlias (name : Text)
  /-- An argument with an alias. -/
  | argumentAlias (name : Text)
  /-- An alias that is an argument. -/
  | aliasArgument (name : Text)
  /-- An alias that takes a value while its option takes none, or the other way round. -/
  | aliasValueMismatch (name : Text)
  /-- A combined short form that has an alias or is one. -/
  | combinedAlias (name : Text)
  deriving DecidableEq, Repr

/-- The mistake in words. -/
def Mistake.message : Mistake → String
  | .emptyName => "Option must have a name"
  | .longAndShort => "Option can not be a long and a short option"
  | .argumentValue => "Arguments can't have a value"
  | .unopenedOptional => "Unopened optional"
  | .nestedOptionals => "Nested optionals are not allowed"
  | .unclosedOptional => "Unclosed optional"
  | .missingClosingAngle text => "Missing closing '>' for argument: " ++ String.ofList text
  | .missingOpeningAngle text => "Missing opening '<' for argument: " ++ String.ofList text
  | .duplicateName name => "Duplicate option name: " ++ String.ofList name
  | .duplicateAlias name => "Duplicate alias name: " ++ String.ofList name
  | .argumentAlias name => "Arguments can't have aliases: " ++ String.ofList name
  | .aliasArgument name => "Alias must be a long or short option: " ++ String.ofList name
  | .aliasValueMismatch name =>
    "Alias must match the value requirement of its option: " ++ String.ofList name
  | .combinedAlias name => "Combined short options can't have aliases: " ++ String.ofList name

end CommandLine

import CommandLine.Text.Basic

/-!
# Reasons for not matching

A list of tokens that does not fit the options is an ordinary outcome. Each reason names the option
that is at fault: as it was written, dashes included, or by its bare name.
-/

namespace CommandLine

/-- Why a list of tokens does not match. -/
inductive Misfit where
  /-- No option has the name that was written. -/
  | unknown (written : Text)
  /-- The name belongs to a form of another kind. -/
  | wrongForm (written : Text)
  /-- There is no token left for the value. -/
  | valueMissing (written : Text)
  /-- There is no token left for the argument. -/
  | argumentMissing (name : Text)
  /-- A mandatory option does not occur. -/
  | optionMissing (name : Text)
  deriving DecidableEq, Repr

/-- The reason in words. -/
def Misfit.message : Misfit → String
  | .unknown written => "Option '" ++ String.ofList written ++ "' does not exist."
  | .wrongForm written =>
    "Option '" ++ String.ofList written ++ "' is not declared in this form."
  | .valueMissing written => "Option '" ++ String.ofList written ++ "' requires a value."
  | .argumentMissing name =>
    "Not enough tokens provided to argument '" ++ String.ofList name ++ "'."
  | .optionMissing name => "Option '" ++ String.ofList name ++ "' was not provided."

end CommandLine

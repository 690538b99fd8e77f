import CommandLine.Matching.Request

/-!
# Scanning a command line

A command line is read from left to right into pieces: option tokens, each with the value that it
took, positional tokens, and the terminator `--`, after which every token is positional.

* `Registry.scan`: the pieces of a command line, or the first reason why there are none.
* `occurrences`, `positionals`: what the pieces say about the options, and the positional tokens.
-/

namespace CommandLine

/-- A stretch of the command line. -/
inductive Piece where
  /-- An option token with the value that it took and what both say. -/
  | option (token : Text) (value : Option Text) (occurrences : List Occurrence)
  /-- A token that is left to the arguments. -/
  | positional (token : Text)
  /-- The token `--` that ends the options. -/
  | terminator
  deriving DecidableEq, Repr

namespace Piece

/-- The tokens that a piece was read from. -/
def tokens : Piece → List Text
  | .option token value _ => token :: value.toList
  | .positional token => [token]
  | .terminator => [['-', '-']]

/-- What a piece says about the options. -/
def occurrences : Piece → List Occurrence
  | .option _ _ occurrences => occurrences
  | _ => []

/-- The positional token of a piece. -/
def positional? : Piece → Option Text
  | .positional token => some token
  | _ => none

end Piece

/-- All occurrences of options, in order. -/
def occurrences (pieces : List Piece) : List Occurrence := pieces.flatMap Piece.occurrences

/-- The positional tokens, in order. -/
def positionals (pieces : List Piece) : List Text := pieces.filterMap Piece.positional?

namespace Registry

/-- The pieces of a command line, or the reason why its first misfit does not fit. -/
def scan (registry : Registry) : List Text → Except Misfit (List Piece)
  | [] => .ok []
  | token :: rest =>
    match Shape.ofToken token with
    | .terminator => .ok (.terminator :: rest.map .positional)
    | .positional => (scan registry rest).map (.positional token :: ·)
    | .mention mention =>
      match registry.request mention with
      | .error reason => .error reason
      | .ok ⟨said, none⟩ => (scan registry rest).map (.option token none said :: ·)
      | .ok ⟨said, some ⟨owner, form⟩⟩ =>
        match rest with
        | [] => .error (.valueMissing form.render)
        | value :: rest =>
          (scan registry rest).map
            (.option token (some value) (said ++ [⟨owner, .given value⟩]) :: ·)

end Registry

end CommandLine

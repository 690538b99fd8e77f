import CommandLine.Registry.Basic
import CommandLine.Matching.Misfit
import CommandLine.Matching.Occurrence

/-!
# Option tokens

A token that starts with a dash mentions options: `--name` mentions one by a long form, `-abc` one
per letter by short forms. A token may ask for the next token as the value of the option that it
mentions last. A short token does so only if its first letter belongs to an option with a value,
too; every other letter is counted.

* `Shape.ofToken`: what a token is by its dashes.
* `Registry.request`: what an option token says and what it asks for.
-/

namespace CommandLine

/-- An option token without its dashes. -/
inductive Mention where
  /-- One option by its long form: `--name`. -/
  | long (name : Text)
  /-- One option per letter by their short forms: `-abc`. -/
  | short (letters : Text)
  deriving DecidableEq, Repr

/-- The token of a mention. -/
def Mention.token : Mention → Text
  | .long name => '-' :: '-' :: name
  | .short letters => '-' :: letters

/-- What a token is by its dashes. -/
inductive Shape where
  /-- The bare `--`, after which no token is an option. -/
  | terminator
  /-- A token with one or two dashes in front. -/
  | mention (mention : Mention)
  /-- A token without a dash in front. -/
  | positional
  deriving DecidableEq, Repr

/-- What a token is by its dashes. -/
def Shape.ofToken : Text → Shape
  | ['-', '-'] => .terminator
  | '-' :: '-' :: name => .mention (.long name)
  | '-' :: letters => .mention (.short letters)
  | _ => .positional

/-- The option whose value is the next token, and the form in which it was written. -/
structure Pending where
  owner : Text
  form : Form
  deriving DecidableEq, Repr

/-- What an option token says by itself, and the value that it still asks for. -/
structure Request where
  occurrences : List Occurrence
  pending : Option Pending
  deriving DecidableEq, Repr

namespace Registry

/-- The option that is declared in this very form. -/
def resolve (registry : Registry) (form : Form) : Except Misfit Declaration :=
  match registry.lookup form.name with
  | none => .error (.unknown form.render)
  | some (option, declared) =>
    if declared.kind = form.kind then .ok option else .error (.wrongForm form.render)

/-- What a long form says and asks for. -/
def requestLong (registry : Registry) (name : Text) : Except Misfit Request :=
  (registry.resolve ⟨.long, name⟩).map fun option =>
    if option.takesValue then ⟨[], some ⟨option.name, ⟨.long, name⟩⟩⟩
    else ⟨[⟨option.name, .switched⟩], none⟩

/-- What letters say and ask for, up to the first that is not found. The last one may ask for a
    value if `reads` is set, and all the others are counted. -/
def requestLetters (registry : Registry) (reads : Bool) : Text → Except Misfit Request
  | [] => .ok ⟨[], none⟩
  | [letter] =>
    (registry.resolve ⟨.short, [letter]⟩).map fun option =>
      if reads && option.takesValue then ⟨[], some ⟨option.name, ⟨.short, [letter]⟩⟩⟩
      else ⟨[⟨option.name, .counted⟩], none⟩
  | letter :: letters =>
    match registry.resolve ⟨.short, [letter]⟩ with
    | .error reason => .error reason
    | .ok option =>
      (requestLetters registry reads letters).map fun request =>
        { request with occurrences := ⟨option.name, .counted⟩ :: request.occurrences }

/-- What the letters of a short token say and ask for. The first letter decides whether a value is
    read at all; a dash without letters is no option. -/
def requestShort (registry : Registry) (letters : Text) : Except Misfit Request :=
  match letters with
  | [] => .error (.unknown (Form.render ⟨.short, []⟩))
  | first :: _ =>
    match registry.resolve ⟨.short, [first]⟩ with
    | .error reason => .error reason
    | .ok option => registry.requestLetters option.takesValue letters

/-- What an option token says and asks for, or the reason why it does not fit. -/
def request (registry : Registry) : Mention → Except Misfit Request
  | .long name => registry.requestLong name
  | .short letters => registry.requestShort letters

end Registry

/-! ## Small facts -/

theorem Shape.ofToken_eq_terminator_iff {token : Text} :
    Shape.ofToken token = .terminator ↔ token = ['-', '-'] := by
  unfold Shape.ofToken
  split <;> simp_all

/-- Positional tokens are those without a dash in front. -/
theorem Shape.ofToken_eq_positional_iff {token : Text} :
    Shape.ofToken token = .positional ↔ token.head? ≠ some '-' := by
  unfold Shape.ofToken
  split <;> simp_all
  cases token <;> simp_all

end CommandLine

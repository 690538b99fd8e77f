import CommandLine.Text.Blank
import CommandLine.Definition.Token
import CommandLine.Registry.Basic

/-!
# Reading definitions

A definition is a list of tokens between white space. The separator `-- `, at the start or after
white space, ends it; what follows is its description.

* `Text.separateDescription`: the part with the tokens, and the description.
* `Registry.readTokens`: the options of a list of tokens, all of them with names of their own.
* `Registry.read`: the registry that a definition declares.
-/

namespace CommandLine

/-- The text before the first separator `-- ` and the text behind it. A separator counts only after
    white space; `boundary` tells whether the text itself follows some, as at the very start. -/
def Text.separateDescription (boundary : Bool) : Text → Text × Option Text
  | [] => ([], none)
  | c :: cs =>
    if boundary && ['-', '-', ' '].isPrefixOf (c :: cs) then ([], some (cs.drop 2))
    else
      let (before, description) := separateDescription (isBlank c) cs
      (c :: before, description)

namespace Registry

/-- The first of `names` that is in `seen` or among the names before it. -/
def firstRepeated (seen : List Text) : List Text → Option Text
  | [] => none
  | name :: names => if name ∈ seen then some name else firstRepeated (name :: seen) names

/-- The options that the tokens declare, up to the first mistake: a token that is refused, a name
    that was declared before (`seen`), or a group that is open at the end. -/
def readTokens (brackets : Brackets) (seen : List Text) :
    List Text → Except Mistake (List Declaration)
  | [] => if brackets.isOpen then .error .unclosedOptional else .ok []
  | token :: tokens =>
    match brackets.read token with
    | (.error mistake, _) => .error mistake
    | (.ok options, after) =>
      let names := options.flatMap Declaration.names
      match firstRepeated seen names with
      | some name => .error (.duplicateName name)
      | none => (readTokens after (seen ++ names) tokens).map (options ++ ·)

/-- The registry that a definition declares. -/
def read (definition : Text) : Except Mistake Registry :=
  let (tokens, description) := Text.separateDescription true definition
  (readTokens {} [] (Text.words tokens)).map fun options => ⟨options, description⟩

end Registry

end CommandLine

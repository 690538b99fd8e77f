import CommandLine.Definition.Brackets
import CommandLine.Definition.Segment

/-!
# Tokens of a definition

A token declares one option, or several at once: between its brackets stand segments divided by
bars, the first one for the primary form and the others for the aliases. A combined short form
`-abc=` declares one option per letter, of which only the last takes the value.

* `Declaration.ofBody`: the options that the body of a token declares.
* `Brackets.read`: reads a token at its place in the brackets.
-/

namespace CommandLine

namespace Declaration

/-- Adds one more form to an option, with its own mark and in this group. What is wrong with the
    option itself comes first, then what is wrong with the form. -/
def addAlias (option : Declaration) (group : Option Nat) (text : Text) :
    Except Mistake Declaration :=
  if option.isArgument then .error (.argumentAlias option.name)
  else if option.primary.isCombined then .error (.combinedAlias option.name)
  else match Segment.read text with
    | .error mistake => .error mistake
    | .ok ⟨form, takesValue⟩ =>
      if form.kind = .argument then .error (.aliasArgument form.name)
      else if form.isCombined then .error (.combinedAlias form.name)
      else if takesValue ≠ option.takesValue then .error (.aliasValueMismatch form.name)
      else if form.name ∈ option.names then .error (.duplicateAlias form.name)
      else .ok { option with aliases := option.aliases ++ [⟨form, takesValue, group⟩] }

/-- Adds the forms that the segments declare, in order, up to the first mistake. -/
def addAliases (option : Declaration) (group : Option Nat) :
    List Text → Except Mistake Declaration
  | [] => .ok option
  | segment :: segments =>
    match option.addAlias group segment with
    | .ok extended => extended.addAliases group segments
    | .error mistake => .error mistake

/-- One short option per letter; the last one takes the value, if any does. -/
def ofLetters (takesValue : Bool) (group : Option Nat) : Text → List Declaration
  | [] => []
  | [letter] => [⟨⟨.short, [letter]⟩, [], takesValue, group⟩]
  | letter :: letters =>
    ⟨⟨.short, [letter]⟩, [], false, group⟩ :: ofLetters takesValue group letters

/-- The options that a declaration stands for: its letters if its form is combined, else itself. -/
def components (option : Declaration) : List Declaration :=
  if option.primary.isCombined then ofLetters option.takesValue option.group option.name
  else [option]

/-- The options that the body of a token declares, all in the same group. -/
def ofBody (group : Option Nat) (body : Text) : Except Mistake (List Declaration) :=
  let (first, others) := Text.splitAt '|' body
  match Segment.read first with
  | .error mistake => .error mistake
  | .ok ⟨form, takesValue⟩ =>
    (addAliases ⟨form, [], takesValue, group⟩ group others).map components

end Declaration

/-- The options that a token declares, and the place after it. The brackets of a token count even
    if its body is refused; a token whose brackets are refused leaves the place as it was. -/
def Brackets.read (brackets : Brackets) (token : Text) :
    Except Mistake (List Declaration) × Brackets :=
  match brackets.peel token with
  | .ok (after, group, body) => (Declaration.ofBody group body, after)
  | .error mistake => (.error mistake, brackets)

end CommandLine

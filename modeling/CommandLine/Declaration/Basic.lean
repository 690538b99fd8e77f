import CommandLine.Text.Basic

/-!
# Declared options

An option is declared in one or more forms, all of them equivalent on the command line. A long form
`--name` is a switch, a short form `-n` counts its occurrences, and an argument is bound by its
position. Options of the first two kinds may take a value, and any option may belong to an optional
group.

* `Declaration.forms`: the primary form, then those of the aliases.
* `Declaration.default?`: what an optional option is bound to when it does not occur.
-/

namespace CommandLine

/-- How a form is written. -/
inductive Kind where
  /-- Two dashes and a name: `--name`. -/
  | long
  /-- One dash and a letter: `-n`. -/
  | short
  /-- A bare name or `<name>`, bound by its position. -/
  | argument
  deriving DecidableEq, Repr

/-- A name and the way in which it is written; the name carries no dashes and no angle brackets. -/
structure Form where
  kind : Kind
  name : Text
  deriving DecidableEq, Repr

namespace Form

/-- Whether this is a short form of several letters, which stands for one option per letter. -/
def isCombined (form : Form) : Bool := form.kind = .short && 1 < form.name.length

/-- The form with its dashes or angle brackets. -/
def render (form : Form) : Text :=
  match form.kind with
  | .long => '-' :: '-' :: form.name
  | .short => '-' :: form.name
  | .argument => '<' :: form.name ++ ['>']

end Form

/-- The mark of a form that takes a value. -/
def valueMark (takesValue : Bool) : Text := if takesValue then ['='] else []

/-- The form in the syntax of definitions. -/
def Form.written (takesValue : Bool) (form : Form) : Text := form.render ++ valueMark takesValue

/-- The value that a match gives to an option. -/
inductive Binding where
  /-- Whether a long switch was given. -/
  | flag (given : Bool)
  /-- How often a short switch was given. A counter of 32 bits shows the same number as long as
      there are fewer than 2 ^ 32 occurrences. -/
  | count (occurrences : Nat)
  /-- The value of an option that takes one, absent when the option is. -/
  | value (text : Option Text)
  /-- The token that an argument received. -/
  | positional (token : Text)
  deriving DecidableEq, Repr

namespace Binding

/-- The state of a long switch. -/
def flag? : Binding → Option Bool
  | .flag given => some given
  | _ => none

/-- The number of occurrences of a short switch. -/
def count? : Binding → Option Nat
  | .count occurrences => some occurrences
  | _ => none

/-- The text of a value or of an argument. -/
def text? : Binding → Option Text
  | .value text => text
  | .positional token => some token
  | _ => none

end Binding

/-- A further form of an option, declared by a segment of the same token: with a mark of its own and
    in the group of the token. A segment holds no bar, so an alias has no aliases. -/
structure Alias where
  form : Form
  takesValue : Bool := false
  /-- The number of the optional group. -/
  group : Option Nat := none
  deriving DecidableEq, Repr

/-- The alias in the syntax of definitions. -/
def Alias.written (other : Alias) : Text := other.form.written other.takesValue

/-- A declared option. -/
structure Declaration where
  primary : Form
  aliases : List Alias := []
  takesValue : Bool := false
  /-- The number of the optional group, counted from one; a mandatory option has none. -/
  group : Option Nat := none
  deriving DecidableEq, Repr

namespace Declaration

/-- The name under which the option is known: that of its primary form. -/
def name (option : Declaration) : Text := option.primary.name

/-- All forms, the primary one first. -/
def forms (option : Declaration) : List Form := option.primary :: option.aliases.map Alias.form

/-- All names, the primary one first. -/
def names (option : Declaration) : List Text := option.forms.map Form.name

/-- Whether the option is bound by position. -/
def isArgument (option : Declaration) : Bool := option.primary.kind = .argument

/-- Whether the option may be left out. -/
def isOptional (option : Declaration) : Bool := option.group.isSome

/-- The form of the option that has this name. -/
def form? (option : Declaration) (name : Text) : Option Form :=
  option.forms.find? fun form => form.name = name

/-- What one of its aliases declares alone. -/
def inForm (option : Declaration) (other : Alias) : Declaration :=
  { option with
    primary := other.form, aliases := [], takesValue := other.takesValue, group := other.group }

/-- The binding of an optional option that does not occur. An argument stays unbound. -/
def default? (option : Declaration) : Option Binding :=
  if option.takesValue then some (.value none)
  else match option.primary.kind with
    | .long => some (.flag false)
    | .short => some (.count 0)
    | .argument => none

/-- The option in the syntax of definitions, without the brackets of its group: its forms between
    bars, each with a mark of its own. -/
def render (option : Declaration) : Text :=
  ['|'].intercalate
    (option.primary.written option.takesValue :: option.aliases.map Alias.written)

/-! ## Small facts -/

@[simp] theorem forms_mk (primary : Form) (aliases : List Alias) (takesValue : Bool)
    (group : Option Nat) :
    (Declaration.mk primary aliases takesValue group).forms = primary :: aliases.map Alias.form :=
  rfl

theorem name_mem_names (option : Declaration) : option.name ∈ option.names := by
  simp [name, names, forms]

theorem form?_eq_some {option : Declaration} {name : Text} {form : Form}
    (h : option.form? name = some form) : form ∈ option.forms ∧ form.name = name :=
  ⟨List.mem_of_find?_eq_some h, by simpa using List.find?_some h⟩

theorem form?_isSome_iff {option : Declaration} {name : Text} :
    (option.form? name).isSome ↔ name ∈ option.names := by
  simp [form?, names, List.find?_isSome]

end Declaration

end CommandLine

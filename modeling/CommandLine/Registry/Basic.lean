import CommandLine.Declaration.Basic

/-!
# Registries of options

A registry holds the options of one definition, in the order of their declaration, and the free text
that describes them.

* `Registry.get?`: an option by its primary name.
* `Registry.lookup`: an option by any of its names, with the form that has the name.
-/

namespace CommandLine

/-- The options of a definition and its description. -/
structure Registry where
  options : List Declaration
  description : Option Text := none
  deriving DecidableEq, Repr

namespace Registry

/-- All names of all options, in the order of declaration. -/
def names (registry : Registry) : List Text := registry.options.flatMap Declaration.names

/-- The option with this primary name. -/
def get? (registry : Registry) (name : Text) : Option Declaration :=
  registry.options.find? fun option => option.name = name

/-- The option that has this name in any of its forms, and the form. -/
def lookup (registry : Registry) (name : Text) : Option (Declaration × Form) :=
  registry.options.findSome? fun option => (option.form? name).map fun form => (option, form)

/-! ## Small facts -/

theorem get?_eq_some {registry : Registry} {name : Text} {option : Declaration}
    (h : registry.get? name = some option) : option ∈ registry.options ∧ option.name = name :=
  ⟨List.mem_of_find?_eq_some h, by simpa using List.find?_some h⟩

theorem lookup_eq_some {registry : Registry} {name : Text} {option : Declaration} {form : Form}
    (h : registry.lookup name = some (option, form)) :
    option ∈ registry.options ∧ form ∈ option.forms ∧ form.name = name := by
  obtain ⟨owner, howner, hform⟩ := List.exists_of_findSome?_eq_some h
  obtain ⟨found, hfound, heq⟩ := Option.map_eq_some_iff.1 hform
  cases heq
  exact ⟨howner, Declaration.form?_eq_some hfound⟩

end Registry

end CommandLine

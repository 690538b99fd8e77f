import CommandLine.Registry.Basic

/-!
# Writing definitions

The options of a registry are written as one token each. Neighbours of one group share a pair of
brackets: the first of them opens it, the last one closes it.

* `Registry.render`: the definition of a registry, without its description.
-/

namespace CommandLine.Registry

/-- The tokens for the options, of which the first one follows an option of the group `previous`. -/
def renderTokens (previous : Option Nat) : List Declaration → List Text
  | [] => []
  | option :: options =>
    let next := options.head?.bind Declaration.group
    let opening := if option.isOptional && option.group ≠ previous then ['['] else []
    let closing := if option.isOptional && option.group ≠ next then [']'] else []
    (opening ++ option.render ++ closing) :: renderTokens option.group options

/-- The definition of a registry, without its description. -/
def render (registry : Registry) : Text := Text.joinWords (renderTokens none registry.options)

end CommandLine.Registry

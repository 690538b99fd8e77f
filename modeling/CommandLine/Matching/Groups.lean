import CommandLine.Declaration.Basic

/-!
# Optional groups of arguments

The arguments of one optional group are filled together or not at all. The tokens that the mandatory
arguments leave over go to whole groups, one after the other: the groups before the first mandatory
argument come first, then those before the second, and so on; among these a larger group comes
before a smaller one, and the order of declaration decides between groups of one size.

* `Layout.ofArguments`: the groups, divided by the mandatory arguments.
* `Layout.ranked`: all groups, the one that is served first in front.
* `chooseGroups`: the groups that are served.
-/

namespace CommandLine

/-- An optional group and the names of the arguments in it. -/
structure ArgumentGroup where
  number : Nat
  members : List Text
  deriving DecidableEq, Repr

/-- The groups of the arguments, divided by the mandatory arguments. -/
structure Layout where
  /-- The groups before the first mandatory argument. -/
  leading : List ArgumentGroup := []
  /-- For each mandatory argument, the groups between it and the next one. -/
  following : List (List ArgumentGroup) := []
  deriving DecidableEq, Repr

namespace Layout

/-- Puts an argument in front of the groups: into the first group if that is its own. -/
def pushMember (number : Nat) (name : Text) : List ArgumentGroup → List ArgumentGroup
  | [] => [⟨number, [name]⟩]
  | group :: groups =>
    if group.number = number then ⟨number, name :: group.members⟩ :: groups
    else ⟨number, [name]⟩ :: group :: groups

/-- Puts an argument in front of the layout. -/
def push (argument : Declaration) (layout : Layout) : Layout :=
  match argument.group with
  | none => ⟨[], layout.leading :: layout.following⟩
  | some number => { layout with leading := pushMember number argument.name layout.leading }

/-- The layout of a list of arguments. -/
def ofArguments (arguments : List Declaration) : Layout := arguments.foldr push {}

/-- Puts a group before the first of the others that is not larger. -/
def insertBySize (group : ArgumentGroup) : List ArgumentGroup → List ArgumentGroup
  | [] => [group]
  | other :: others =>
    if other.members.length ≤ group.members.length then group :: other :: others
    else other :: insertBySize group others

/-- The groups by decreasing size; groups of one size stay in order. -/
def bySize (groups : List ArgumentGroup) : List ArgumentGroup := groups.foldr insertBySize []

/-- All groups, the one that is served first in front. -/
def ranked (layout : Layout) : List ArgumentGroup :=
  bySize layout.leading ++ layout.following.flatMap bySize

end Layout

/-- The groups that are served when `spare` tokens are left for them: each group in turn that still
    fits as a whole. -/
def chooseGroups (spare : Nat) : List ArgumentGroup → List ArgumentGroup
  | [] => []
  | group :: groups =>
    if group.members.length ≤ spare then
      group :: chooseGroups (spare - group.members.length) groups
    else chooseGroups spare groups

end CommandLine

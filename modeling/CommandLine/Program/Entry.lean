import CommandLine.Text.Basic

/-!
# Trees of commands

The commands of a program form a tree: an entry is a command, with some content, or a group of
further entries. The same name may occur more than once in a list of entries.

* `Entry.leaves`, `Entry.leavesOfAll`: the commands with the names on their paths, depth first.
-/

namespace CommandLine

/-- A command or a group of commands. -/
inductive Entry (α : Type) where
  | command (name : Text) (content : α)
  | group (name : Text) (entries : List (Entry α))

/-- A command as it is found in a tree: the names on the way to it, its own one last. -/
structure Leaf (α : Type) where
  path : List Text
  content : α

namespace Entry

variable {α : Type}

/-- The name of an entry. -/
def name : Entry α → Text
  | .command name _ => name
  | .group name _ => name

mutual

/-- The commands of an entry, depth first and in order; `path` is the way to the entry. -/
def leaves (path : List Text) : Entry α → List (Leaf α)
  | .command name content => [⟨path ++ [name], content⟩]
  | .group name entries => leavesOfAll (path ++ [name]) entries

/-- The commands of a list of entries, depth first and in order; `path` is the way to the list. -/
def leavesOfAll (path : List Text) : List (Entry α) → List (Leaf α)
  | [] => []
  | entry :: entries => leaves path entry ++ leavesOfAll path entries

end

end Entry

end CommandLine

import CommandLine.Program.Basic
import CommandLine.Registry.Render
import CommandLine.Usage.Paragraph

/-!
# The usage page

A usage page shows the description of a program, each of its lines filled as a paragraph, and one
line per command: its path, the definition of its options and its own description.

* `usageLines`: the lines of the page.
-/

namespace CommandLine

/-- The lines for a description: a paragraph for each of its lines, or an empty line for a blank
    one, and an empty line at the end. -/
def descriptionLines (width : Width) (description : Text) : List Text :=
  (description.lines.flatMap fun line =>
    if line.all Text.isBlank then [[]] else fillParagraph width line) ++ [[]]

variable {ρ : Type}

/-- The line for a command, whatever its length. It holds a line feed where the description of the
    command does. -/
def usageLine (leaf : Leaf (Prepared ρ)) : Text :=
  let registry := leaf.content.registry
  let definition := registry.render
  [' ', ' '] ++ Text.joinWords leaf.path
    ++ (if definition = [] then [] else ' ' :: definition)
    ++ registry.description.elim [] ([' ', ' ', '-', '-', ' '] ++ ·)

/-- The lines of the usage page. -/
def usageLines (width : Width) (program : Program (Prepared ρ)) : List Text :=
  program.description.elim [] (descriptionLines width)
    ++ "Usage:".toList :: (Entry.leavesOfAll [program.name] program.entries).map usageLine

end CommandLine

import CommandLine.Matching.Match
import CommandLine.Program.Entry
import CommandLine.Registry.Read

/-!
# Programs

A program is a tree of commands. It is described with the definitions of the commands as texts, and
it is prepared by reading all of them, depth first. The first definition that is refused is reported
with the path of its command.

* `Program.addCommand`, `Program.addGroup`, `Program.withDescription`: describing a program.
* `Program.prepare`: the program that is ready to run, or the first definition that is refused.
-/

namespace CommandLine

/-- A command as it is described: the definition of its options, and the answer to a match. -/
structure Command (ρ : Type) where
  definition : Text
  handler : Match → ρ

/-- A command that is ready to run. -/
structure Prepared (ρ : Type) where
  registry : Registry
  handler : Match → ρ

/-- A program whose commands have some content. -/
structure Program (α : Type) where
  name : Text
  description : Option Text := none
  entries : List (Entry α) := []

/-- A definition that was refused, with the program and the names on the path of its command. -/
structure InvalidDefinition where
  path : List Text
  mistake : Mistake
  deriving DecidableEq, Repr

namespace InvalidDefinition

/-- The path as it would be typed. -/
def command (invalid : InvalidDefinition) : Text := Text.joinWords invalid.path

/-- The refusal in words. -/
def message (invalid : InvalidDefinition) : String :=
  "Invalid definition for command '" ++ String.ofList invalid.command ++ "': "
    ++ invalid.mistake.message

end InvalidDefinition

variable {ρ : Type}

/-! ## Preparing commands -/

/-- Reads the definition of the command at `path`. -/
def Command.prepare (path : List Text) (command : Command ρ) :
    Except InvalidDefinition (Prepared ρ) :=
  match Registry.read command.definition with
  | .error mistake => .error ⟨path, mistake⟩
  | .ok registry => .ok ⟨registry, command.handler⟩

namespace Entry

mutual

/-- Reads all definitions of an entry; `path` is the way to the entry. -/
def prepare (path : List Text) :
    Entry (Command ρ) → Except InvalidDefinition (Entry (Prepared ρ))
  | .command name described => (described.prepare (path ++ [name])).map (.command name)
  | .group name entries => (prepareAll (path ++ [name]) entries).map (.group name)

/-- Reads all definitions of a list of entries; `path` is the way to the list. -/
def prepareAll (path : List Text) :
    List (Entry (Command ρ)) → Except InvalidDefinition (List (Entry (Prepared ρ)))
  | [] => .ok []
  | entry :: entries =>
    match prepare path entry with
    | .error invalid => .error invalid
    | .ok prepared => (prepareAll path entries).map (prepared :: ·)

end

end Entry

/-! ## Describing and preparing programs -/

namespace Program

/-- Describes the program. Of several descriptions the last one counts. -/
def withDescription {α : Type} (program : Program α) (description : Text) : Program α :=
  { program with description := some description }

/-- Adds a command behind the others. -/
def addCommand (program : Program (Command ρ)) (name definition : Text) (handler : Match → ρ) :
    Program (Command ρ) :=
  { program with entries := program.entries ++ [.command name ⟨definition, handler⟩] }

/-- Adds a group with the commands of another program behind the others. The name and the
    description of that program play no role. -/
def addGroup {α : Type} (program : Program α) (name : Text) (inner : Program α) : Program α :=
  { program with entries := program.entries ++ [.group name inner.entries] }

/-- Reads all definitions of a program. -/
def prepare (program : Program (Command ρ)) : Except InvalidDefinition (Program (Prepared ρ)) :=
  (Entry.prepareAll [program.name] program.entries).map fun entries =>
    { program with entries := entries }

end Program

end CommandLine

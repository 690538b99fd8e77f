import CommandLine.Except
import CommandLine.Proofs.Usage.Commands

/-!
# Programs that are ready to run

Preparing a program reads the definitions of its commands one after the other, depth first. A
program whose definitions are all accepted keeps its names, their order and the groups, and every
command keeps its handler. Otherwise the first definition that is refused is reported: the first one
in the list of all commands, at whatever depth it stands.

Results:
* `Entry.prepare_eq_ok_iff`, `Entry.prepareAll_eq_ok_iff`: what the entries become.
* `Entry.prepare_eq_error_iff`, `Entry.prepareAll_eq_error_iff`: which refusal is reported.
* `Program.prepare_reads_or_reports`: what becomes of a program.
-/

namespace CommandLine

variable {ρ : Type}

/-- The command is ready with the options that its definition declares, and with its own handler. -/
structure Command.ReadAs (described : Command ρ) (prepared : Prepared ρ) : Prop where
  read_eq : Registry.read described.definition = .ok prepared.registry
  handler_eq : prepared.handler = described.handler

/-- The same entry, where every command is ready. -/
inductive Entry.ReadAs : Entry (Command ρ) → Entry (Prepared ρ) → Prop
  | command (name : Text) {described : Command ρ} {prepared : Prepared ρ}
      (h : described.ReadAs prepared) : ReadAs (.command name described) (.command name prepared)
  | group (name : Text) {entries : List (Entry (Command ρ))} {prepared : List (Entry (Prepared ρ))}
      (h : List.Forall₂ ReadAs entries prepared) : ReadAs (.group name entries) (.group name prepared)

/-- The refusal of the definition of a command, if it is refused. -/
def Leaf.refusal? (leaf : Leaf (Command ρ)) : Option InvalidDefinition :=
  match Registry.read leaf.content.definition with
  | .error mistake => some ⟨leaf.path, mistake⟩
  | .ok _ => none

/-! ## One command -/

theorem Command.prepare_eq_ok_iff {path : List Text} {described : Command ρ}
    {prepared : Prepared ρ} :
    described.prepare path = .ok prepared ↔ described.ReadAs prepared := by
  unfold Command.prepare
  constructor
  · intro h
    split at h
    · cases h
    · next hread =>
      cases h
      exact ⟨hread, rfl⟩
  · intro h
    rw [h.read_eq, ← h.handler_eq]

theorem Command.prepare_eq_error_iff {path : List Text} {described : Command ρ}
    {invalid : InvalidDefinition} :
    described.prepare path = .error invalid ↔
      (⟨path, described⟩ : Leaf (Command ρ)).refusal? = some invalid := by
  unfold Command.prepare Leaf.refusal?
  cases Registry.read described.definition <;> simp

theorem Leaf.refusal?_eq_some_iff {leaf : Leaf (Command ρ)} {invalid : InvalidDefinition} :
    leaf.refusal? = some invalid ↔
      invalid.path = leaf.path ∧ Registry.read leaf.content.definition = .error invalid.mistake := by
  unfold Leaf.refusal?
  cases Registry.read leaf.content.definition with
  | error mistake =>
    rw [Option.some.injEq, Except.error.injEq]
    constructor
    · rintro rfl
      exact ⟨rfl, rfl⟩
    · rintro ⟨hpath, hmistake⟩
      rw [hmistake, ← hpath]
  | ok registry => simp

theorem Leaf.refusal?_eq_none_iff {leaf : Leaf (Command ρ)} :
    leaf.refusal? = none ↔
      ∃ registry, Registry.read leaf.content.definition = .ok registry := by
  unfold Leaf.refusal?
  cases Registry.read leaf.content.definition <;> simp

namespace Entry

/-! ## All commands -/

mutual

/-- What an entry becomes. -/
theorem prepare_eq_ok_iff (path : List Text) (entry : Entry (Command ρ))
    (prepared : Entry (Prepared ρ)) : prepare path entry = .ok prepared ↔ ReadAs entry prepared := by
  cases entry with
  | command name described =>
    rw [prepare, map_eq_ok_iff]
    constructor
    · rintro ⟨ready, hready, rfl⟩
      exact .command name (Command.prepare_eq_ok_iff.1 hready)
    · intro h
      cases h with
      | command _ hready => exact ⟨_, Command.prepare_eq_ok_iff.2 hready, rfl⟩
  | group name entries =>
    rw [prepare, map_eq_ok_iff]
    constructor
    · rintro ⟨ready, hready, rfl⟩
      exact .group name ((prepareAll_eq_ok_iff _ entries ready).1 hready)
    · intro h
      cases h with
      | group _ hready => exact ⟨_, (prepareAll_eq_ok_iff _ entries _).2 hready, rfl⟩

/-- What a list of entries becomes. -/
theorem prepareAll_eq_ok_iff (path : List Text) (entries : List (Entry (Command ρ)))
    (prepared : List (Entry (Prepared ρ))) :
    prepareAll path entries = .ok prepared ↔ List.Forall₂ ReadAs entries prepared := by
  cases entries with
  | nil =>
    rw [prepareAll, List.forall₂_nil_left_iff, Except.ok.injEq, eq_comm]
  | cons entry entries =>
    rw [prepareAll, List.forall₂_cons_left_iff]
    constructor
    · intro h
      split at h
      · cases h
      · next ready hready =>
        obtain ⟨others, hothers, rfl⟩ := map_eq_ok_iff.1 h
        exact ⟨ready, others, (prepare_eq_ok_iff path entry ready).1 hready,
          (prepareAll_eq_ok_iff path entries others).1 hothers, rfl⟩
    · rintro ⟨ready, others, hready, hothers, rfl⟩
      rw [(prepare_eq_ok_iff path entry ready).2 hready]
      exact map_eq_ok_iff.2 ⟨others, (prepareAll_eq_ok_iff path entries others).2 hothers, rfl⟩

end

mutual

/-- Which refusal is reported for an entry. -/
theorem prepare_eq_error_iff (path : List Text) (entry : Entry (Command ρ))
    (invalid : InvalidDefinition) :
    prepare path entry = .error invalid ↔
      (leaves path entry).findSome? Leaf.refusal? = some invalid := by
  cases entry with
  | command name described =>
    rw [prepare, map_eq_error_iff, Command.prepare_eq_error_iff, leaves]
    simp
  | group name entries =>
    rw [prepare, map_eq_error_iff, leaves]
    exact prepareAll_eq_error_iff (path ++ [name]) entries invalid

/-- Which refusal is reported for a list of entries. -/
theorem prepareAll_eq_error_iff (path : List Text) (entries : List (Entry (Command ρ)))
    (invalid : InvalidDefinition) :
    prepareAll path entries = .error invalid ↔
      (leavesOfAll path entries).findSome? Leaf.refusal? = some invalid := by
  cases entries with
  | nil => simp [prepareAll, leavesOfAll]
  | cons entry entries =>
    have hentry := prepare_eq_error_iff path entry
    rw [prepareAll, leavesOfAll, List.findSome?_append]
    cases hprepare : prepare path entry with
    | error reported =>
      rw [(hentry reported).1 hprepare]
      simp
    | ok ready =>
      have hnone : (leaves path entry).findSome? Leaf.refusal? = none := by
        rw [Option.eq_none_iff_forall_ne_some]
        intro reported hreported
        rw [(hentry reported).2 hreported] at hprepare
        cases hprepare
      rw [hnone, Option.none_or]
      show (prepareAll path entries).map _ = _ ↔ _
      rw [map_eq_error_iff]
      exact prepareAll_eq_error_iff path entries invalid

end

end Entry

namespace Program

/-! ## Programs -/

variable {program : Program (Command ρ)}

theorem prepare_eq_ok_iff {prepared : Program (Prepared ρ)} :
    program.prepare = .ok prepared ↔ prepared.name = program.name ∧
      prepared.description = program.description ∧
      List.Forall₂ Entry.ReadAs program.entries prepared.entries := by
  unfold prepare
  rw [map_eq_ok_iff]
  constructor
  · rintro ⟨entries, hentries, rfl⟩
    exact ⟨rfl, rfl, (Entry.prepareAll_eq_ok_iff _ _ _).1 hentries⟩
  · rintro ⟨hname, hdescription, hentries⟩
    refine ⟨prepared.entries, (Entry.prepareAll_eq_ok_iff _ _ _).2 hentries, ?_⟩
    rw [← hname, ← hdescription]

/-- The refusal of the definition of a command of the program, if it is refused. -/
def refusal? (program : Program (Command ρ)) (leaf : Leaf (Command ρ)) :
    Option InvalidDefinition :=
  Leaf.refusal? ⟨program.name :: leaf.path, leaf.content⟩

theorem refusal?_eq_none_iff {leaf : Leaf (Command ρ)} :
    program.refusal? leaf = none ↔
      ∃ registry, Registry.read leaf.content.definition = .ok registry :=
  Leaf.refusal?_eq_none_iff

theorem prepare_eq_error_iff_findSome? {invalid : InvalidDefinition} :
    program.prepare = .error invalid ↔
      program.commands.findSome? program.refusal? = some invalid := by
  unfold prepare
  rw [map_eq_error_iff, Entry.prepareAll_eq_error_iff, leavesOfAll_eq_map_commands,
    List.findSome?_map]
  rfl

theorem exists_prepare_eq_ok_iff :
    (∃ prepared, program.prepare = .ok prepared) ↔ ∀ leaf ∈ program.commands, ∃ registry,
      Registry.read leaf.content.definition = .ok registry := by
  have hnone : (∃ prepared, program.prepare = .ok prepared) ↔
      program.commands.findSome? program.refusal? = none := by
    rw [Option.eq_none_iff_forall_ne_some]
    constructor
    · rintro ⟨prepared, hprepared⟩ invalid hinvalid
      rw [prepare_eq_error_iff_findSome?.2 hinvalid] at hprepared
      cases hprepared
    · intro hinvalid
      cases hprepare : program.prepare with
      | ok prepared => exact ⟨prepared, rfl⟩
      | error invalid => exact absurd (prepare_eq_error_iff_findSome?.1 hprepare) (hinvalid invalid)
  rw [hnone, List.findSome?_eq_none_iff]
  exact forall₂_congr fun leaf _ => refusal?_eq_none_iff

/-- A program is ready if all definitions are accepted, and then nothing else has changed. Otherwise
    the first definition that is refused is reported with the path of its command. -/
theorem prepare_reads_or_reports (program : Program (Command ρ)) :
    ((∃ prepared, program.prepare = .ok prepared) ↔
      ∀ leaf ∈ program.commands, ∃ registry,
        Registry.read leaf.content.definition = .ok registry) ∧
    (∀ prepared, program.prepare = .ok prepared ↔ prepared.name = program.name ∧
      prepared.description = program.description ∧
      List.Forall₂ Entry.ReadAs program.entries prepared.entries) ∧
    ∀ invalid, program.prepare = .error invalid ↔ ∃ front leaf behind,
      program.commands = front ++ leaf :: behind ∧
        (∀ earlier ∈ front, ∃ registry, Registry.read earlier.content.definition = .ok registry) ∧
        Registry.read leaf.content.definition = .error invalid.mistake ∧
        invalid.path = program.name :: leaf.path ∧
        invalid.command = Text.joinWords (program.name :: leaf.path) := by
  refine ⟨exists_prepare_eq_ok_iff, fun prepared => prepare_eq_ok_iff, fun invalid => ?_⟩
  rw [prepare_eq_error_iff_findSome?, List.findSome?_eq_some_iff]
  constructor
  · rintro ⟨front, leaf, behind, hcommands, hrefused, hfront⟩
    obtain ⟨hpath, hread⟩ := Leaf.refusal?_eq_some_iff.1 hrefused
    refine ⟨front, leaf, behind, hcommands, ?_, hread, hpath, ?_⟩
    · intro earlier hearlier
      exact refusal?_eq_none_iff.1 (hfront earlier hearlier)
    · rw [InvalidDefinition.command, hpath]
  · rintro ⟨front, leaf, behind, hcommands, hfront, hread, hpath, -⟩
    refine ⟨front, leaf, behind, hcommands, Leaf.refusal?_eq_some_iff.2 ⟨hpath, hread⟩, ?_⟩
    intro earlier hearlier
    exact refusal?_eq_none_iff.2 (hfront earlier hearlier)

end Program

end CommandLine

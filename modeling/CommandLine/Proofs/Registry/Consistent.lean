import CommandLine.Proofs.Registry.Grammar
import CommandLine.Proofs.Registry.Letters
import CommandLine.Proofs.Registry.Lookup

/-!
# What every registry guarantees

A registry that is read from a definition is consistent: its names are words without bars and belong
to one form each, a form is written as its kind demands, an alias takes a value and is in a group
just as its owner, and the groups are numbered from one in the order in which they are declared,
without gaps and without interruptions. Therefore looking up a name finds the form that declares it,
and nothing else.

Results:
* `Registry.groupsInOrder_of_numbered`: the order of the groups.
* `Registry.exists_declaredBy_of_readTokens`: the segments from which an option has its aliases.
* `Registry.consistent_of_read`: every registry that is read is consistent.
-/

namespace CommandLine

namespace Registry

/-! ## The order of the groups -/

/-- The numbers of the groups, in the order of declaration: one for every optional option. -/
def groupNumbers (options : List Declaration) : List Nat := options.filterMap Declaration.group

/-- The groups stand one behind the other and are numbered from one. -/
structure GroupsInOrder (options : List Declaration) : Prop where
  /-- No number up to the last one is left out. -/
  complete : ∃ count, ∀ number, number ∈ groupNumbers options ↔ 1 ≤ number ∧ number ≤ count
  ascending : (groupNumbers options).Pairwise (· ≤ ·)
  /-- Nothing else stands between two options of a group. -/
  together : ∀ front first inner last back,
    options = front ++ first :: (inner ++ last :: back) → first.isOptional = true →
      last.group = first.group → ∀ option ∈ inner, option.group = first.group

theorem mem_groupNumbers {options : List Declaration} {number : Nat} :
    number ∈ groupNumbers options ↔ ∃ option ∈ options, option.group = some number :=
  List.mem_filterMap

theorem groupNumbers_cons_of_none {option : Declaration} (hgroup : option.group = none)
    (options : List Declaration) : groupNumbers (option :: options) = groupNumbers options :=
  List.filterMap_cons_none hgroup

theorem groupNumbers_cons_of_some {option : Declaration} {number : Nat}
    (hgroup : option.group = some number) (options : List Declaration) :
    groupNumbers (option :: options) = number :: groupNumbers options :=
  List.filterMap_cons_some hgroup

theorem Numbered.le_of_mem {number opened : Nat} {options : List Declaration}
    (h : Numbered (some opened) opened options) (hnumber : number ∈ groupNumbers options) :
    opened ≤ number := by
  obtain ⟨option, hoption, hgroup⟩ := mem_groupNumbers.1 hnumber
  have hlater := h.lt_or_eq option hoption number hgroup
  omega

/-- The groups that are opened later are numbered on without a gap. -/
theorem Numbered.exists_count {previous : Option Nat} {opened : Nat} {options : List Declaration}
    (h : Numbered previous opened options) :
    ∃ count, opened ≤ count ∧
      ∀ number, opened < number → (number ∈ groupNumbers options ↔ number ≤ count) := by
  induction h with
  | nil =>
    refine ⟨_, Nat.le_refl _, fun number hlt => ?_⟩
    simp [groupNumbers]
    omega
  | mandatory hgroup _ ih =>
    obtain ⟨count, hle, hcount⟩ := ih
    refine ⟨count, hle, fun number hlt => ?_⟩
    rw [groupNumbers_cons_of_none hgroup]
    exact hcount number hlt
  | @opens _ opened _ _ hgroup _ ih =>
    obtain ⟨count, hle, hcount⟩ := ih
    refine ⟨count, by omega, fun number hlt => ?_⟩
    rw [groupNumbers_cons_of_some hgroup, List.mem_cons]
    rcases Nat.eq_or_lt_of_le hlt with heq | hlt
    · exact iff_of_true (.inl heq.symm) (by omega)
    · rw [hcount number hlt]
      omega
  | @continues opened _ _ hgroup _ ih =>
    obtain ⟨count, hle, hcount⟩ := ih
    refine ⟨count, hle, fun number hlt => ?_⟩
    rw [groupNumbers_cons_of_some hgroup, List.mem_cons, hcount number hlt]
    omega

theorem Numbered.pairwise {previous : Option Nat} {opened : Nat} {options : List Declaration}
    (h : Numbered previous opened options) : (groupNumbers options).Pairwise (· ≤ ·) := by
  induction h with
  | nil => exact .nil
  | mandatory hgroup _ ih =>
    rw [groupNumbers_cons_of_none hgroup]
    exact ih
  | opens hgroup hrest ih =>
    rw [groupNumbers_cons_of_some hgroup]
    exact .cons (fun number hnumber => hrest.le_of_mem hnumber) ih
  | continues hgroup hrest ih =>
    rw [groupNumbers_cons_of_some hgroup]
    exact .cons (fun number hnumber => hrest.le_of_mem hnumber) ih

/-- A group that goes on later goes on without interruption. -/
theorem Numbered.group_eq_of_append {opened number : Nat} {inner back : List Declaration}
    {last : Declaration} (h : Numbered (some number) opened (inner ++ last :: back))
    (hle : number ≤ opened) (hlast : last.group = some number) :
    ∀ option ∈ inner, option.group = some number := by
  induction inner generalizing opened with
  | nil => simp
  | cons first inner ih =>
    have hmem : last ∈ first :: inner ++ last :: back := by simp
    have hfirst : first.group = some number := by simpa using h.head?_group_eq hle hmem hlast
    obtain ⟨opened', -, hrest, hle'⟩ := h.tail (by simpa using hle)
    rw [hfirst] at hrest
    intro option hoption
    rcases List.mem_cons.1 hoption with rfl | hoption
    · exact hfirst
    · exact ih hrest (hle' number hfirst) option hoption

/-- Groups that are numbered in the order in which they open stand in order. -/
theorem groupsInOrder_of_numbered {options : List Declaration} (h : Numbered none 0 options) :
    GroupsInOrder options where
  complete := by
    obtain ⟨count, -, hcount⟩ := h.exists_count
    refine ⟨count, fun number => ?_⟩
    rcases Nat.eq_zero_or_pos number with rfl | hpos
    · refine iff_of_false (fun hmem => ?_) (by omega)
      obtain ⟨option, hoption, hgroup⟩ := mem_groupNumbers.1 hmem
      have hlater := h.lt_or_eq option hoption 0 hgroup
      simp at hlater
    · rw [hcount number hpos]
      omega
  ascending := h.pairwise
  together := by
    intro front first inner last back hoptions hoptional hsame option hoption
    subst hoptions
    obtain ⟨number, hgroup⟩ := Option.isSome_iff_exists.1 hoptional
    obtain ⟨opened, hrest, hle⟩ := h.of_append (by simp)
    rw [hgroup] at hrest hsame ⊢
    exact hrest.group_eq_of_append (hle number hgroup) hsame option hoption

/-! ## Consistency -/

/-- What a registry guarantees to everyone who reads it. -/
structure Consistent (registry : Registry) : Prop where
  distinct : registry.names.Nodup
  words : ∀ option ∈ registry.options, ∀ form ∈ option.forms,
    Text.IsWord form.name ∧ '|' ∉ form.name
  short : ∀ option ∈ registry.options, ∀ form ∈ option.forms,
    form.kind = .short → form.name.length = 1
  long : ∀ option ∈ registry.options, ∀ form ∈ option.forms,
    form.kind = .long → form.name.head? ≠ some '-'
  arguments : ∀ option ∈ registry.options, option.isArgument = true →
    option.takesValue = false ∧ option.aliases = []
  /-- An alias takes a value and is in a group just as its owner. Alone it is an option of its own,
      without aliases. -/
  aliases : ∀ option ∈ registry.options, ∀ other ∈ option.aliases,
    (other.form.kind = .long ∨ other.form.kind = .short) ∧
      other.takesValue = option.takesValue ∧ other.group = option.group ∧
      Declaration.ofBody option.group (option.inForm other).render = .ok [option.inForm other]
  groups : GroupsInOrder registry.options
  lookup : ∀ name option form, registry.lookup name = some (option, form) ↔
    option ∈ registry.options ∧ form ∈ option.forms ∧ form.name = name
  lookup_none : ∀ name, registry.lookup name = none ↔ name ∉ registry.names
  get : ∀ name option, registry.get? name = some option ↔
    option ∈ registry.options ∧ option.name = name

end Registry

namespace Declaration

variable {option : Declaration} {form : Form}

/-- The token declares the option: its first segment is read as the primary form, and the other ones
    are read as the aliases, each with a mark of its own. -/
structure DeclaredBy (token : Text) (option : Declaration) : Prop where
  primary : Segment.read (Text.splitAt '|' (Brackets.body token)).1 =
    .ok ⟨option.primary, option.takesValue⟩
  aliases : List.Forall₂
    (fun segment other => Segment.read segment = .ok ⟨other.form, other.takesValue⟩)
    (Text.splitAt '|' (Brackets.body token)).2 option.aliases

theorem SpelledBy.declaredBy {token : Text} (h : option.SpelledBy (Brackets.body token)) :
    option.DeclaredBy token where
  primary := Segment.read_eq_ok_iff.2 h.primary
  aliases := h.aliases.imp fun _ _ hother => Segment.read_eq_ok_iff.2 hother.1

/-- Only an option that a body declares as a whole has aliases. -/
theorem spelledBy_of_ofBody {group : Option Nat} {body : Text} {options : List Declaration}
    (h : ofBody group body = .ok options) (hoption : option ∈ options)
    (haliases : option.aliases ≠ []) : option.SpelledBy body := by
  obtain ⟨declared, hspelled, -, -, rfl⟩ := ofBody_eq_ok_iff.1 h
  unfold components at hoption
  split at hoption
  · obtain ⟨letter, -, value, rfl⟩ := mem_ofLetters hoption
    exact absurd rfl haliases
  · obtain rfl := List.mem_singleton.1 hoption
    exact hspelled

/-- No long name starts with a dash: only a letter need not be legible. -/
theorem WellFormed.head?_ne (h : option.WellFormed) (hform : form ∈ option.forms)
    (hlong : form.kind = .long) : form.name.head? ≠ some '-' := by
  have hkind : form.kind ≠ .argument := by simp [hlong]
  rcases List.mem_cons.1 hform with rfl | hform
  · rcases h.legible with hlegible | ⟨hshort, -⟩
    · exact hlegible.dash hkind
    · rw [hlong] at hshort
      cases hshort
  · exact (h.takes.each form hform).2.2.dash hkind

/-- An alias alone declares the option in this form. -/
theorem WellFormed.ofBody_inForm (h : option.WellFormed) {other : Alias}
    (hother : other ∈ option.aliases) :
    ofBody option.group (option.inForm other).render = .ok [option.inForm other] := by
  have hform : other.form ∈ option.aliases.map Alias.form := List.mem_map_of_mem hother
  obtain ⟨hvalue, hgroup⟩ := h.uniform other hother
  obtain ⟨-, hcombined, hlegible⟩ := h.takes.each other.form hform
  have hreadable : (option.inForm other).Readable := by
    refine ⟨?_, fun found hfound => ?_, ⟨by simp [inForm], by simp [inForm], ?_⟩,
      uniform_of_aliases_eq_nil rfl⟩
    · rw [← hvalue] at hlegible
      exact hlegible
    · obtain rfl : found = other.form := by simpa [inForm] using hfound
      exact h.unbarred other.form (List.mem_cons_of_mem _ hform)
    · simp [inForm, names, forms]
  have hread := ofBody_render hreadable
  rw [components_of_not_isCombined hcombined] at hread
  rw [← hgroup]
  exact hread

end Declaration

namespace Registry

variable {registry : Registry}

/-- An option with aliases is declared by one of the tokens, segment by segment. -/
theorem exists_declaredBy_of_readTokens {place : Brackets} {seen tokens : List Text}
    {options : List Declaration} (h : readTokens place seen tokens = .ok options)
    {option : Declaration} (hoption : option ∈ options) (haliases : option.aliases ≠ []) :
    ∃ token ∈ tokens, option.DeclaredBy token := by
  induction tokens generalizing place seen options with
  | nil =>
    rw [readTokens] at h
    split at h <;> cases h
    cases hoption
  | cons token tokens ih =>
    obtain ⟨front, rest, after, hread, -, hrest, rfl⟩ := exists_of_readTokens_cons h
    rcases List.mem_append.1 hoption with hoption | hoption
    · obtain ⟨-, -, hbody, -⟩ := Brackets.read_eq_ok_iff.1 hread
      exact ⟨token, List.mem_cons_self,
        (Declaration.spelledBy_of_ofBody hbody hoption haliases).declaredBy⟩
    · obtain ⟨other, hother, hdeclared⟩ := ih hrest hoption
      exact ⟨other, List.mem_cons_of_mem _ hother, hdeclared⟩

theorem WellFormed.consistent (h : registry.WellFormed) : registry.Consistent := by
  constructor
  case distinct => exact h.distinct
  case words =>
    intro option hoption form hform
    exact ⟨(h.options option hoption).words form hform,
      (h.options option hoption).unbarred form hform⟩
  case short => exact fun option hoption => (h.options option hoption).letter
  case long => exact fun option hoption form hform => (h.options option hoption).head?_ne hform
  case arguments =>
    intro option hoption hargument
    exact ⟨(h.options option hoption).takesValue_eq_false hargument,
      (h.options option hoption).aliases_eq_nil hargument⟩
  case aliases =>
    intro option hoption other hother
    have hkind := ((h.options option hoption).takes.each other.form (List.mem_map_of_mem hother)).1
    obtain ⟨hvalue, hgroup⟩ := (h.options option hoption).uniform other hother
    refine ⟨?_, hvalue, hgroup, (h.options option hoption).ofBody_inForm hother⟩
    cases hcase : other.form.kind with
    | long => exact .inl rfl
    | short => exact .inr rfl
    | argument => exact absurd hcase hkind
  case groups => exact groupsInOrder_of_numbered h.numbered
  case lookup => exact fun name option form => lookup_eq_some_iff h.distinct
  case lookup_none => exact fun name => lookup_eq_none_iff
  case get => exact fun name option => get?_eq_some_iff h.distinct

/-- Every registry that is read is consistent, and the aliases of an option are what the segments of
    its token are read as. -/
theorem consistent_of_read {definition : Text} (hread : Registry.read definition = .ok registry) :
    registry.Consistent ∧ ∀ option ∈ registry.options, option.aliases ≠ [] →
      ∃ token ∈ Text.words (Text.separateDescription true definition).1,
        option.DeclaredBy token := by
  refine ⟨(wellFormed_of_read hread).consistent, ?_⟩
  obtain ⟨options, hoptions, rfl⟩ := map_eq_ok_iff.1 hread
  exact fun option => exists_declaredBy_of_readTokens hoptions

/-- Here a combined form stands beside an option with an alias in one group, and a second group
    follows behind a mandatory argument. The second token declares the option with the alias. -/
theorem consistent_of_two_groups : ∃ registry,
    Registry.read ['[', '-', 'a', 'b', '=', ' ', '-', '-', 'l', '=', '|', '-', 'm', '=', ']', ' ',
        'x', ' ', '[', '<', 'y', '>', ']'] = .ok registry ∧
      registry.names = [['a'], ['b'], ['l'], ['m'], ['x'], ['y']] ∧
      groupNumbers registry.options = [1, 1, 1, 2] ∧ registry.Consistent ∧
      ∀ option ∈ registry.options, option.aliases ≠ [] →
        ∃ token ∈ [['[', '-', 'a', 'b', '='], ['-', '-', 'l', '=', '|', '-', 'm', '=', ']'], ['x'],
          ['[', '<', 'y', '>', ']']], option.DeclaredBy token := by
  have h : Registry.read ['[', '-', 'a', 'b', '=', ' ', '-', '-', 'l', '=', '|', '-', 'm', '=', ']',
      ' ', 'x', ' ', '[', '<', 'y', '>', ']'] =
    .ok ⟨[⟨⟨.short, ['a']⟩, [], false, some 1⟩, ⟨⟨.short, ['b']⟩, [], true, some 1⟩,
      ⟨⟨.long, ['l']⟩, [⟨⟨.short, ['m']⟩, true, some 1⟩], true, some 1⟩,
      ⟨⟨.argument, ['x']⟩, [], false, none⟩, ⟨⟨.argument, ['y']⟩, [], false, some 2⟩], none⟩ := rfl
  exact ⟨_, h, rfl, rfl, consistent_of_read h⟩

end Registry

end CommandLine

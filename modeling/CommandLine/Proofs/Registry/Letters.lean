import CommandLine.Proofs.Registry.RoundTrip

/-!
# Letters that read as syntax

A combined form may declare any letters, and each of them is written as a token of its own. Three of
them are syntax there: a dash turns into the dashes of a long form, an equals sign without a value
into a mark, and a bracket without aliases closes a group, unless it ends its group anyway. A
definition is read back if and only if it declares no such letter; all other names, marks, aliases
and groups survive.

Results:
* `Registry.Numbered.head?_group_eq`: the options of a group stand side by side.
* `Registry.misreads_of_misread`, `Registry.exists_misread_of_misreads`: the letters that read as
  syntax, by what is declared.
* `Registry.read_render_options_iff`: which definitions are read back.
-/

namespace CommandLine.Registry

/-! ## Neighbours in a group -/

/-- The groups that are still to come have higher numbers, except for one that goes on. -/
theorem Numbered.lt_or_eq {previous : Option Nat} {opened : Nat} {options : List Declaration}
    (h : Numbered previous opened options) :
    ∀ option ∈ options, ∀ number, option.group = some number →
      opened < number ∨ previous = some opened ∧ number = opened := by
  induction h with
  | nil => simp
  | @mandatory previous opened first options hgroup _ ih =>
    intro option hoption number hnumber
    rcases List.mem_cons.1 hoption with rfl | hoption
    · rw [hgroup] at hnumber
      cases hnumber
    · exact .inl ((ih option hoption number hnumber).resolve_right (by simp))
  | @opens previous opened first options hgroup _ ih =>
    intro option hoption number hnumber
    rcases List.mem_cons.1 hoption with rfl | hoption
    · rw [hgroup, Option.some.injEq] at hnumber
      omega
    · have := ih option hoption number hnumber
      omega
  | @continues opened first options hgroup _ ih =>
    intro option hoption number hnumber
    rcases List.mem_cons.1 hoption with rfl | hoption
    · rw [hgroup, Option.some.injEq] at hnumber
      exact .inr ⟨rfl, hnumber.symm⟩
    · exact ih option hoption number hnumber

/-- The options of a group stand side by side: if the group goes on at all, it does so at once. -/
theorem Numbered.head?_group_eq {opened number : Nat} {options : List Declaration}
    (h : Numbered (some number) opened options) (hle : number ≤ opened)
    {other : Declaration} (hother : other ∈ options) (hgroup : other.group = some number) :
    options.head?.bind Declaration.group = some number := by
  cases h with
  | nil => cases hother
  | mandatory hfirst hrest =>
    rcases List.mem_cons.1 hother with rfl | hother
    · rw [hgroup] at hfirst
      cases hfirst
    · have := hrest.lt_or_eq other hother number hgroup
      simp at this
      omega
  | opens hfirst hrest =>
    rcases List.mem_cons.1 hother with rfl | hother
    · rw [hgroup, Option.some.injEq] at hfirst
      omega
    · have := hrest.lt_or_eq other hother number hgroup
      omega
  | continues hfirst hrest =>
    rw [List.head?_cons, Option.bind_some, hfirst]

/-- The numbering goes on behind each option. -/
theorem Numbered.of_append {previous : Option Nat} {opened : Nat} {front rest : List Declaration}
    {option : Declaration} (h : Numbered previous opened (front ++ option :: rest))
    (hprevious : ∀ number, previous = some number → number ≤ opened) :
    ∃ opened', Numbered option.group opened' rest ∧
      ∀ number, option.group = some number → number ≤ opened' := by
  induction front generalizing previous opened with
  | nil =>
    obtain ⟨opened', -, hrest, hle⟩ := h.tail hprevious
    exact ⟨opened', hrest, hle⟩
  | cons first front ih =>
    obtain ⟨opened', -, hrest, hle⟩ := h.tail hprevious
    exact ih hrest hle

/-! ## Letters -/

/-- Another option of the same group is declared behind the option. -/
def FollowedInGroup (registry : Registry) (option : Declaration) : Prop :=
  ∃ front rest, registry.options = front ++ option :: rest ∧
    ∃ other ∈ rest, other.group = option.group

/-- The option is a letter that reads as syntax when it stands alone. -/
def Misreads (registry : Registry) (option : Declaration) : Prop :=
  option.primary.kind = .short ∧
    (option.name = ['-'] ∨
      option.name = ['='] ∧ option.takesValue = false ∨
      option.name = [']'] ∧ option.takesValue = false ∧ option.aliases = [] ∧
        (option.isOptional = false ∨ registry.FollowedInGroup option))

variable {registry : Registry} {option : Declaration}

theorem primary_eq_iff {kind : Kind} {name : Text} :
    option.primary = ⟨kind, name⟩ ↔ option.primary.kind = kind ∧ option.name = name := by
  obtain ⟨⟨optionKind, optionName⟩, aliases, takesValue, group⟩ := option
  simp [Declaration.name]

/-- The next option of a registry is in the group of this one just if any later option is. -/
theorem followed_iff_head? (h : registry.WellFormed) {front rest : List Declaration}
    (hoptions : registry.options = front ++ option :: rest) {number : Nat}
    (hgroup : option.group = some number) :
    (∃ other ∈ rest, other.group = option.group) ↔
      option.group = rest.head?.bind Declaration.group := by
  constructor
  · rintro ⟨other, hother, hsame⟩
    have hnumbered := h.numbered
    rw [hoptions] at hnumbered
    obtain ⟨opened', hrest, hle⟩ := hnumbered.of_append (by simp)
    rw [hgroup] at hrest hsame ⊢
    exact (hrest.head?_group_eq (hle number hgroup) hother hsame).symm
  · intro hnext
    rw [hgroup] at hnext ⊢
    obtain ⟨other, hother, hnumber⟩ := Option.bind_eq_some_iff.1 hnext.symm
    exact ⟨other, List.mem_of_mem_head? hother, hnumber⟩

theorem misreads_of_misread (h : registry.WellFormed) {front rest : List Declaration}
    (hoptions : registry.options = front ++ option :: rest)
    (hmisread : option.Misread (rest.head?.bind Declaration.group)) :
    registry.Misreads option := by
  rcases hmisread with hdash | ⟨hmark, hvalue⟩ | ⟨⟨hbracket, hvalue, haliases⟩, hplace⟩
  · obtain ⟨hkind, hname⟩ := primary_eq_iff.1 hdash
    exact ⟨hkind, .inl hname⟩
  · obtain ⟨hkind, hname⟩ := primary_eq_iff.1 hmark
    exact ⟨hkind, .inr (.inl ⟨hname, hvalue⟩)⟩
  · obtain ⟨hkind, hname⟩ := primary_eq_iff.1 hbracket
    refine ⟨hkind, .inr (.inr ⟨hname, hvalue, haliases, ?_⟩)⟩
    cases hgroup : option.group with
    | none => exact .inl (by simp [Declaration.isOptional, hgroup])
    | some number =>
      have hnext := hplace.resolve_left (by simp [hgroup])
      exact .inr ⟨front, rest, hoptions, (followed_iff_head? h hoptions hgroup).2 hnext⟩

theorem exists_misread_of_misreads (h : registry.WellFormed) (hoption : option ∈ registry.options)
    (hmisreads : registry.Misreads option) :
    ∃ front rest, registry.options = front ++ option :: rest ∧
      option.Misread (rest.head?.bind Declaration.group) := by
  obtain ⟨front, rest, hoptions⟩ := List.append_of_mem hoption
  obtain ⟨hkind, hname | ⟨hname, hvalue⟩ | ⟨hname, hvalue, haliases, hplace⟩⟩ := hmisreads
  · exact ⟨front, rest, hoptions, .inl (primary_eq_iff.2 ⟨hkind, hname⟩)⟩
  · exact ⟨front, rest, hoptions, .inr (.inl ⟨primary_eq_iff.2 ⟨hkind, hname⟩, hvalue⟩)⟩
  · have hbracket : option.IsBracket := ⟨primary_eq_iff.2 ⟨hkind, hname⟩, hvalue, haliases⟩
    cases hgroup : option.group with
    | none => exact ⟨front, rest, hoptions, .inr (.inr ⟨hbracket, .inl hgroup⟩)⟩
    | some number =>
      obtain ⟨front, rest, hoptions, hfollowed⟩ :=
        hplace.resolve_left (by simp [Declaration.isOptional, hgroup])
      exact ⟨front, rest, hoptions,
        .inr (.inr ⟨hbracket, .inr ((followed_iff_head? h hoptions hgroup).1 hfollowed)⟩)⟩

/-! ## Reading back -/

/-- The options of a registry are read back if and only if none of them is a letter that reads as
    syntax. -/
theorem read_render_options_iff {definition : Text}
    (hread : Registry.read definition = .ok registry) :
    (∃ again, Registry.read registry.render = .ok again ∧ again.options = registry.options) ↔
      ∀ option ∈ registry.options, ¬ registry.Misreads option := by
  have h := wellFormed_of_read hread
  rcases exists_allFaithful (sealed_of_read hread) h.options with
    hall | ⟨front, option, rest, hoptions, hmisread, hfront⟩
  · refine iff_of_true ⟨_, read_render_of_allFaithful h hall, rfl⟩
      fun option hoption hmisreads => ?_
    obtain ⟨front, rest, hoptions, hmisread⟩ := exists_misread_of_misreads h hoption hmisreads
    rw [hoptions] at hall
    exact hall.not_misread (by simpa using hmisread)
  · have hoption : option ∈ registry.options := by simp [hoptions]
    refine iff_of_false ?_ fun hnone =>
      hnone option hoption (misreads_of_misread h hoptions hmisread)
    rintro ⟨again, hagain, hsame⟩
    -- only the options in front of the letter are read
    have hlost := (read_render_of_misread h hoptions hmisread hfront hagain).2
    rw [hsame, hoptions] at hlost
    simpa using congrArg List.length hlost

/-- Here a bracket ends its group and an equals sign takes a value, so both are read back. -/
theorem not_misreads_of_last_bracket :
    Registry.read ['[', '-', 'a', ']', ']', ' ', '-', '=', '='] =
        .ok ⟨[⟨⟨.short, ['a']⟩, [], false, some 1⟩, ⟨⟨.short, [']']⟩, [], false, some 1⟩,
          ⟨⟨.short, ['=']⟩, [], true, none⟩], none⟩ ∧
      ∀ option ∈ [⟨⟨.short, ['a']⟩, [], false, some 1⟩, ⟨⟨.short, [']']⟩, [], false, some 1⟩,
          (⟨⟨.short, ['=']⟩, [], true, none⟩ : Declaration)],
        ¬ Misreads ⟨[⟨⟨.short, ['a']⟩, [], false, some 1⟩, ⟨⟨.short, [']']⟩, [], false, some 1⟩,
          ⟨⟨.short, ['=']⟩, [], true, none⟩], none⟩ option := by
  have h : Registry.read ['[', '-', 'a', ']', ']', ' ', '-', '=', '='] =
    .ok ⟨[⟨⟨.short, ['a']⟩, [], false, some 1⟩, ⟨⟨.short, [']']⟩, [], false, some 1⟩,
      ⟨⟨.short, ['=']⟩, [], true, none⟩], none⟩ := rfl
  exact ⟨h, (read_render_options_iff h).1 ⟨_, rfl, rfl⟩⟩

/-- A mandatory bracket without a value is read back if it has an alias, since its token does not
    end with the bracket. -/
theorem read_render_bracket_with_alias :
    ∃ registry, Registry.read ['-', ']', '|', '-', '-', 'x'] = .ok registry ∧
      (∃ again, Registry.read registry.render = .ok again ∧ again.options = registry.options) ∧
      ∃ option ∈ registry.options, option.primary = ⟨.short, [']']⟩ ∧
        option.takesValue = false ∧ option.isOptional = false := by
  have h : Registry.read ['-', ']', '|', '-', '-', 'x'] =
    .ok ⟨[⟨⟨.short, [']']⟩, [⟨⟨.long, ['x']⟩, false, none⟩], false, none⟩], none⟩ := rfl
  exact ⟨_, h, ⟨_, rfl, rfl⟩, _, List.mem_singleton_self _, rfl, rfl, rfl⟩

end CommandLine.Registry

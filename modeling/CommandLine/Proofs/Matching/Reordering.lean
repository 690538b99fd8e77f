import CommandLine.Proofs.Matching.Regrouping

/-!
# Options in another order

The order of declaration decides which tokens the arguments receive, and nothing else. Other options
are found by their names, and what they are bound to depends on their own occurrences only. So two
registries with the same arguments match the same command lines, with the same bindings, wherever
their other options are declared and whatever the numbers of the groups are.

The argument goes one way at a time: a registry adopts another one if it has all of its options, and
if whatever else it has may be left out. Then it reads what the other one reads.

Results:
* `Registry.Reads.adopt`: a command line is read in the same way.
* `Registry.Adopts.get?_matchOf`: the options of both registries are bound in the same way.
* `Registry.fit_agrees_of_reordered`: registries that differ in their order match the same.
-/

namespace CommandLine

namespace Declaration

/-- The options cannot be told from each other on a command line. The aliases may stand in another
    order, and the group may have another number. -/
structure Twin (option twin : Declaration) : Prop where
  primary : twin.primary = option.primary
  aliases : (twin.aliases.map Alias.form).Perm (option.aliases.map Alias.form)
  takesValue : twin.takesValue = option.takesValue
  isOptional : twin.isOptional = option.isOptional

namespace Twin

variable {option twin : Declaration}

instance : Decidable (option.Twin twin) :=
  decidable_of_iff (twin.primary = option.primary ∧
      (twin.aliases.map Alias.form).Perm (option.aliases.map Alias.form) ∧
      twin.takesValue = option.takesValue ∧ twin.isOptional = option.isOptional)
    ⟨fun h => ⟨h.1, h.2.1, h.2.2.1, h.2.2.2⟩,
      fun h => ⟨h.primary, h.aliases, h.takesValue, h.isOptional⟩⟩

theorem symm (h : option.Twin twin) : twin.Twin option :=
  ⟨h.primary.symm, h.aliases.symm, h.takesValue.symm, h.isOptional.symm⟩

theorem name_eq (h : option.Twin twin) : twin.name = option.name := congrArg Form.name h.primary

theorem isArgument_eq (h : option.Twin twin) : twin.isArgument = option.isArgument := by
  rw [isArgument, isArgument, h.primary]

theorem default?_eq (h : option.Twin twin) : twin.default? = option.default? := by
  rw [default?, default?, h.takesValue, h.primary]

theorem forms_perm (h : option.Twin twin) : twin.forms.Perm option.forms := by
  rw [forms, forms, h.primary]
  exact h.aliases.cons _

theorem mem_names_iff (h : option.Twin twin) {name : Text} :
    name ∈ twin.names ↔ name ∈ option.names :=
  (h.forms_perm.map Form.name).mem_iff

theorem occursIn_iff (h : option.Twin twin) {pieces : List Piece} :
    twin.OccursIn pieces ↔ option.OccursIn pieces := by
  simp only [OccursIn, h.forms_perm.mem_iff]

theorem isGiven_iff (h : option.Twin twin) {pieces : List Piece} :
    twin.IsGiven pieces ↔ option.IsGiven pieces := by
  rw [IsGiven, IsGiven, h.isArgument_eq, h.isOptional, h.occursIn_iff]

end Twin

end Declaration

/-! ## One token -/

theorem map_name_of_twins {owners twins : List Declaration}
    (h : List.Forall₂ Declaration.Twin owners twins) :
    twins.map Declaration.name = owners.map Declaration.name := by
  induction h with
  | nil => rfl
  | cons htwin _ ih => rw [List.map_cons, List.map_cons, htwin.name_eq, ih]

theorem map_takesValue_of_twins {owners twins : List Declaration}
    (h : List.Forall₂ Declaration.Twin owners twins) :
    twins.map Declaration.takesValue = owners.map Declaration.takesValue := by
  induction h with
  | nil => rfl
  | cons htwin _ ih => rw [List.map_cons, List.map_cons, htwin.takesValue, ih]

theorem asksValue_eq_any (owners : List Declaration) :
    asksValue owners = ((owners.map Declaration.takesValue).head?.any id &&
      (owners.map Declaration.takesValue).getLast?.any id) := by
  simp [asksValue, List.head?_map, List.getLast?_map, Option.any_map]

/-- A token asks for a value on behalf of the twins just if it does so on behalf of the options. -/
theorem asksValue_of_twins {owners twins : List Declaration}
    (h : List.Forall₂ Declaration.Twin owners twins) : asksValue twins = asksValue owners := by
  rw [asksValue_eq_any, asksValue_eq_any, map_takesValue_of_twins h]

theorem map_plain_eq (mention : Mention) (owners : List Declaration) :
    owners.map mention.plain =
      (owners.map Declaration.name).map fun name => ⟨name, mention.reading⟩ := by
  rw [List.map_map]
  rfl

theorem map_given_getLast?_eq (owners : List Declaration) (text : Text) :
    (owners.getLast?.toList.map fun owner => (⟨owner.name, .given text⟩ : Occurrence)) =
      (owners.map Declaration.name).getLast?.toList.map fun name => ⟨name, .given text⟩ := by
  rw [List.getLast?_map]
  cases owners.getLast? <;> rfl

/-- A token says the same about the twins as about the options. -/
theorem said_of_twins (mention : Mention) {owners twins : List Declaration}
    (h : List.Forall₂ Declaration.Twin owners twins) (value : Option Text) :
    mention.said twins value = mention.said owners value := by
  have hnames := map_name_of_twins h
  cases value with
  | none => rw [Mention.said, Mention.said, map_plain_eq, map_plain_eq, hnames]
  | some text =>
    rw [Mention.said, Mention.said, List.map_dropLast, List.map_dropLast, map_plain_eq,
      map_plain_eq, map_given_getLast?_eq, map_given_getLast?_eq, hnames]

namespace Registry

variable {registry other : Registry} {tokens : List Text} {pieces : List Piece}

/-! ## Adopting options -/

/-- The other registry has all options of this one. Whatever else it has may be left out and is no
    argument. -/
structure Adopts (registry other : Registry) : Prop where
  arguments : Regrouped registry.arguments other.arguments
  twins : ∀ option ∈ registry.options, option.isArgument = false →
    ∃ twin ∈ other.options, option.Twin twin
  mandatory : ∀ twin ∈ other.options, twin.isArgument = false → twin.isOptional = false →
    ∃ option ∈ registry.options, option.Twin twin

/-- A form with dashes belongs to an option that is no argument. -/
theorem isArgument_eq_false_of_declares (h : registry.WellFormed) {option : Declaration}
    {form : Form} (hform : registry.Declares option form) (hkind : form.kind ≠ .argument) :
    option.isArgument = false := by
  by_contra hcase
  have hargument : option.isArgument = true := by simpa using hcase
  -- an argument has no aliases, so its only form has no dashes
  have hnil := (h.options option hform.1).aliases_eq_nil hargument
  obtain rfl : form = option.primary := by simpa [Declaration.forms, hnil] using hform.2
  exact hkind (by simpa [Declaration.isArgument] using hargument)

theorem Owned.exists_twins (h : registry.WellFormed) (hadopts : registry.Adopts other)
    {owners : List Declaration} {forms : List Form} (howners : registry.Owned owners forms)
    (hkinds : ∀ form ∈ forms, form.kind ≠ .argument) :
    ∃ twins, other.Owned twins forms ∧ List.Forall₂ Declaration.Twin owners twins := by
  induction howners with
  | nil => exact ⟨[], .nil, .nil⟩
  | @cons owner form owners forms howner _ ih =>
    have hkind := isArgument_eq_false_of_declares h howner (hkinds form List.mem_cons_self)
    obtain ⟨twin, hmem, htwin⟩ := hadopts.twins owner howner.1 hkind
    obtain ⟨twins, hforms, htwins⟩ := ih fun f hf => hkinds f (List.mem_cons_of_mem _ hf)
    exact ⟨twin :: twins, .cons ⟨hmem, htwin.forms_perm.mem_iff.2 howner.2⟩ hforms,
      .cons htwin htwins⟩

theorem kind_ne_argument_of_mem_forms {mention : Mention} {form : Form}
    (hform : form ∈ mention.forms) : form.kind ≠ .argument := by
  rcases kind_of_mem_forms hform with ⟨hkind, -, -⟩ | ⟨hkind, -⟩ <;> simp [hkind]

/-- A piece that fits one registry fits every registry that adopts it. -/
theorem Admits.adopt (h : registry.WellFormed) (hadopts : registry.Adopts other) {piece : Piece}
    (hpiece : registry.Admits piece) : other.Admits piece := by
  cases hpiece with
  | positional htoken => exact .positional htoken
  | @option token mention owners value hshape howners hvalue =>
    obtain ⟨twins, hforms, htwins⟩ :=
      howners.exists_twins h hadopts fun _ => kind_ne_argument_of_mem_forms
    rw [← said_of_twins mention htwins]
    exact .option hshape hforms (by rw [hvalue, asksValue_of_twins htwins])

/-- A command line is read in the same way by every registry that adopts this one. -/
theorem Reads.adopt (h : registry.WellFormed) (hadopts : registry.Adopts other)
    (hreads : registry.Reads tokens pieces) : other.Reads tokens pieces := by
  induction hreads with
  | done => exact .done
  | ended rest => exact .ended rest
  | piece hpiece _ ih => exact .piece (hpiece.adopt h hadopts) ih

/-! ## Binding the options -/

/-- Twins are bound to the same, since they have the same name and the same default. -/
theorem settle_of_twin {option twin : Declaration} (htwin : option.Twin twin)
    (hkind : option.isArgument = false) (pieces : List Piece) :
    other.settle pieces twin = registry.settle pieces option := by
  rw [settle, settle, Declaration.settled?, Declaration.settled?,
    Declaration.bound?_of_not_isArgument hkind,
    Declaration.bound?_of_not_isArgument (htwin.isArgument_eq.trans hkind), htwin.name_eq,
    htwin.default?_eq]

theorem assignment_of_regrouped (h : registry.WellFormed) (hother : other.WellFormed)
    (hregrouped : Regrouped registry.arguments other.arguments) (tokens : List Text) :
    other.assignment tokens = registry.assignment tokens := by
  rw [assignment, assignment, slots_of_regrouped h hother hregrouped]

/-- Each argument has a counterpart with its name. -/
theorem exists_argument_of_regrouped (hregrouped : Regrouped registry.arguments other.arguments)
    {option : Declaration} (hoption : option ∈ registry.options)
    (hkind : option.isArgument = true) :
    ∃ twin ∈ other.options, twin.isArgument = true ∧ twin.name = option.name := by
  have hmem : option.name ∈ other.arguments.map Declaration.name := by
    rw [hregrouped.map_name_eq]
    exact List.mem_map_of_mem (List.mem_filter.2 ⟨hoption, hkind⟩)
  obtain ⟨twin, htwin, hname⟩ := List.mem_map.1 hmem
  obtain ⟨htwin, hkind'⟩ := List.mem_filter.1 htwin
  exact ⟨twin, htwin, hkind', hname⟩

/-- An argument is bound to the same token by its name. -/
theorem exists_settle_argument (h : registry.WellFormed) (hother : other.WellFormed)
    (hregrouped : Regrouped registry.arguments other.arguments) {option : Declaration}
    (hoption : option ∈ registry.options) (hkind : option.isArgument = true)
    (pieces : List Piece) :
    ∃ twin ∈ other.options, twin.name = option.name ∧
      other.settle pieces twin = registry.settle pieces option := by
  obtain ⟨twin, htwin, hkind', hname⟩ := exists_argument_of_regrouped hregrouped hoption hkind
  refine ⟨twin, htwin, hname, ?_⟩
  rw [settle_of_isArgument hother htwin hkind', settle_of_isArgument h hoption hkind, hname,
    assignment_of_regrouped h hother hregrouped]

theorem get?_matchOf_of_notMem {name : Text} (hname : name ∉ registry.names)
    (pieces : List Piece) : (registry.matchOf pieces).get? name = none :=
  Declaration.lookup_eq_none_of_notMem fun hmem =>
    hname ((Declaration.map_fst_bindings_sublist _ _).mem hmem)

theorem names_eq_singleton_of_isArgument (h : registry.WellFormed) {option : Declaration}
    (hoption : option ∈ registry.options) (hkind : option.isArgument = true) :
    option.names = [option.name] := by
  rw [Declaration.names, Declaration.forms, (h.options option hoption).aliases_eq_nil hkind]
  rfl

namespace Adopts

/-- All options of the registry have counterparts with the same names. -/
theorem names_subset (h : registry.WellFormed) (hadopts : registry.Adopts other) :
    registry.names ⊆ other.names := by
  intro name hname
  obtain ⟨option, hoption, hmem⟩ := List.mem_flatMap.1 hname
  cases hkind : option.isArgument with
  | false =>
    obtain ⟨twin, htwin, hsame⟩ := hadopts.twins option hoption hkind
    exact List.mem_flatMap.2 ⟨twin, htwin, hsame.mem_names_iff.2 hmem⟩
  | true =>
    rw [names_eq_singleton_of_isArgument h hoption hkind, List.mem_singleton] at hmem
    obtain ⟨twin, htwin, -, heq⟩ := exists_argument_of_regrouped hadopts.arguments hoption hkind
    refine List.mem_flatMap.2 ⟨twin, htwin, ?_⟩
    rw [hmem, ← heq]
    exact twin.name_mem_names

/-- The names of the registry are bound in the same way. -/
theorem get?_matchOf (h : registry.WellFormed) (hother : other.WellFormed)
    (hadopts : registry.Adopts other) {name : Text} (hname : name ∈ registry.names)
    (pieces : List Piece) :
    (other.matchOf pieces).get? name = (registry.matchOf pieces).get? name := by
  obtain ⟨option, hoption, hmem⟩ := List.mem_flatMap.1 hname
  rw [Registry.get?_matchOf h pieces hoption hmem]
  cases hkind : option.isArgument with
  | false =>
    obtain ⟨twin, htwin, hsame⟩ := hadopts.twins option hoption hkind
    rw [Registry.get?_matchOf hother pieces htwin (hsame.mem_names_iff.2 hmem),
      settle_of_twin hsame hkind]
  | true =>
    obtain ⟨twin, htwin, heq, hsettle⟩ :=
      exists_settle_argument h hother hadopts.arguments hoption hkind pieces
    rw [names_eq_singleton_of_isArgument h hoption hkind, List.mem_singleton] at hmem
    rw [hmem, ← heq, get?_name_matchOf hother pieces htwin, hsettle]

theorem remaining_matchOf (h : registry.WellFormed) (hother : other.WellFormed)
    (hadopts : registry.Adopts other) (pieces : List Piece) :
    (other.matchOf pieces).remaining = (registry.matchOf pieces).remaining := by
  rw [matchOf, matchOf, slots_of_regrouped h hother hadopts.arguments]

/-- A registry that adopts this one matches what this one matches. -/
theorem fit_of_fits (h : registry.WellFormed) (hother : other.WellFormed)
    (hadopts : registry.Adopts other) (hreads : registry.Reads tokens pieces)
    (henough : registry.mandatoryArguments.length ≤ (positionals pieces).length)
    (hgiven : ∀ option ∈ registry.options, option.IsGiven pieces) :
    other.fit tokens = .ok (other.matchOf pieces) := by
  refine Registry.fit_of_fits hother (hreads.adopt h hadopts) ?_
    fun twin htwin hkind hmandatory => ?_
  · rw [length_mandatoryArguments hadopts.arguments]
    exact henough
  · obtain ⟨option, hoption, hsame⟩ := hadopts.mandatory twin htwin hkind hmandatory
    exact hsame.isGiven_iff.2 (hgiven option hoption) hkind hmandatory

end Adopts

/-! ## Another order -/

/-- The arguments are the same, in the same order and divided into groups in the same way. The other
    options are the same up to their order and the numbers of their groups. -/
structure Reordered (registry other : Registry) : Prop where
  names : other.arguments.map Declaration.name = registry.arguments.map Declaration.name
  optional :
    other.arguments.map Declaration.isOptional = registry.arguments.map Declaration.isOptional
  /-- Two arguments share a group just if their counterparts do. -/
  groups : ∀ argument ∈ registry.arguments, ∀ beside ∈ registry.arguments,
    ∀ argument' ∈ other.arguments, ∀ beside' ∈ other.arguments,
      argument'.name = argument.name → beside'.name = beside.name →
        (argument.group = beside.group ↔ argument'.group = beside'.group)
  twins : ∀ option ∈ registry.options, option.isArgument = false →
    ∃ twin ∈ other.options, option.Twin twin
  others : ∀ twin ∈ other.options, twin.isArgument = false →
    ∃ option ∈ registry.options, option.Twin twin

theorem Reordered.adopts (h : registry.Reordered other) : registry.Adopts other :=
  ⟨.of_groups h.names h.optional h.groups, h.twins, fun twin htwin hkind _ =>
    h.others twin htwin hkind⟩

theorem Reordered.symm (h : registry.Reordered other) : other.Reordered registry where
  names := h.names.symm
  optional := h.optional.symm
  groups argument hargument beside hbeside argument' hargument' beside' hbeside' hname hname' :=
    (h.groups argument' hargument' beside' hbeside' argument hargument beside hbeside hname.symm
      hname'.symm).symm
  twins twin htwin hkind := by
    obtain ⟨option, hoption, hsame⟩ := h.others twin htwin hkind
    exact ⟨option, hoption, hsame.symm⟩
  others option hoption hkind := by
    obtain ⟨twin, htwin, hsame⟩ := h.twins option hoption hkind
    exact ⟨twin, htwin, hsame.symm⟩

/-- A match of the one registry is a match of the other. -/
theorem Reordered.exists_fit (h : registry.WellFormed) (hother : other.WellFormed)
    (hreordered : registry.Reordered other) {found : Match}
    (hfit : registry.fit tokens = .ok found) :
    ∃ found', other.fit tokens = .ok found' ∧ found'.remaining = found.remaining ∧
      ∀ name, found'.get? name = found.get? name := by
  obtain ⟨pieces, hreads, henough, hgiven⟩ := fits_of_fit h hfit
  rw [Registry.fit_of_fits h hreads henough hgiven] at hfit
  obtain rfl := Except.ok.inj hfit
  have hadopts := hreordered.adopts
  refine ⟨_, hadopts.fit_of_fits h hother hreads henough hgiven,
    hadopts.remaining_matchOf h hother pieces, fun name => ?_⟩
  by_cases hname : name ∈ registry.names
  · exact hadopts.get?_matchOf h hother hname pieces
  · have hname' : name ∉ other.names := fun hmem =>
      hname (hreordered.symm.adopts.names_subset hother hmem)
    rw [get?_matchOf_of_notMem hname, get?_matchOf_of_notMem hname']

/-- Where the arguments agree, it makes no difference in which order and in which groups the other
    options are declared: a command line matches neither registry, or it matches both, with the same
    bindings and the same tokens left over. -/
theorem fit_agrees_of_reordered {definition definition' : Text}
    (hread : Registry.read definition = .ok registry)
    (hread' : Registry.read definition' = .ok other) (hreordered : registry.Reordered other)
    (tokens : List Text) :
    ((∃ reason, registry.fit tokens = .error reason) ∧
        ∃ reason, other.fit tokens = .error reason) ∨
      ∃ found found', registry.fit tokens = .ok found ∧ other.fit tokens = .ok found' ∧
        found'.remaining = found.remaining ∧ ∀ name, found'.get? name = found.get? name := by
  have h := wellFormed_of_read hread
  have hother := wellFormed_of_read hread'
  cases hfit : registry.fit tokens with
  | ok found =>
    obtain ⟨found', hfit', hremaining, hbound⟩ := hreordered.exists_fit h hother hfit
    exact .inr ⟨found, found', rfl, hfit', hremaining, hbound⟩
  | error reason =>
    cases hfit' : other.fit tokens with
    | error reason' => exact .inl ⟨⟨reason, rfl⟩, reason', rfl⟩
    | ok found' =>
      obtain ⟨found, hfound, -, -⟩ := hreordered.symm.exists_fit hother h hfit'
      rw [hfit] at hfound
      cases hfound

/-- Here a switch stands inside the group of an argument or in a group of its own, and the aliases
    of another option change places. -/
theorem fit_agrees_of_moved_switch : ∃ registry other,
    Registry.read ['[', '-', 'f', ' ', 'a', ']', ' ', '-', '-', 'n', '=', '|', '-', 'm', '=', '|', '-',
        'k', '=', ' ', 'b'] = .ok registry ∧
      Registry.read ['[', '-', 'f', ']', ' ', '-', '-', 'n', '=', '|', '-', 'k', '=', '|', '-', 'm',
        '=', ' ', '[', 'a', ']', ' ', 'b'] = .ok other ∧
      registry.options ≠ other.options ∧ registry.Reordered other ∧
      (((∃ reason, registry.fit [['-', 'm'], ['v'], ['x']] = .error reason) ∧
          ∃ reason, other.fit [['-', 'm'], ['v'], ['x']] = .error reason) ∨
        ∃ found found', registry.fit [['-', 'm'], ['v'], ['x']] = .ok found ∧
          other.fit [['-', 'm'], ['v'], ['x']] = .ok found' ∧
          found'.remaining = found.remaining ∧ ∀ name, found'.get? name = found.get? name) := by
  let flag (number : Nat) : Declaration := ⟨⟨.short, ['f']⟩, [], false, some number⟩
  let optional (number : Nat) : Declaration := ⟨⟨.argument, ['a']⟩, [], false, some number⟩
  let mandatory : Declaration := ⟨⟨.argument, ['b']⟩, [], false, none⟩
  let short (letter : Char) : Alias := ⟨⟨.short, [letter]⟩, true, none⟩
  have h : Registry.read ['[', '-', 'f', ' ', 'a', ']', ' ', '-', '-', 'n', '=', '|', '-', 'm', '=',
      '|', '-', 'k', '=', ' ', 'b'] =
    .ok ⟨[flag 1, optional 1, ⟨⟨.long, ['n']⟩, [short 'm', short 'k'], true, none⟩,
      mandatory], none⟩ := rfl
  have h' : Registry.read ['[', '-', 'f', ']', ' ', '-', '-', 'n', '=', '|', '-', 'k', '=', '|', '-',
      'm', '=', ' ', '[', 'a', ']', ' ', 'b'] =
    .ok ⟨[flag 1, ⟨⟨.long, ['n']⟩, [short 'k', short 'm'], true, none⟩, optional 2,
      mandatory], none⟩ := rfl
  have hreordered : Reordered
      ⟨[flag 1, optional 1, ⟨⟨.long, ['n']⟩, [short 'm', short 'k'], true, none⟩,
        mandatory], none⟩
      ⟨[flag 1, ⟨⟨.long, ['n']⟩, [short 'k', short 'm'], true, none⟩, optional 2,
        mandatory], none⟩ := ⟨rfl, rfl, by decide, by decide, by decide⟩
  exact ⟨_, _, h, h', by decide, hreordered, fit_agrees_of_reordered h h' hreordered _⟩

end Registry

end CommandLine

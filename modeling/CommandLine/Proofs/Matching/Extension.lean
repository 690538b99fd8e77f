import CommandLine.Proofs.Matching.Reordering
import CommandLine.Proofs.Registry.Insertion

/-!
# One option more

A definition may be extended by an option that may be left out, as long as its names are new.
Command lines that matched before still match, with the same bindings and the default of the new
option, and those that did not match fail for the same reason, unless it was that one of the new
names was unknown. It makes no difference where the option is declared, even if it divides the
groups that are tried for one mandatory argument: it only renumbers the groups behind it.

Results:
* `Registry.Gains.adopts`: the extended registry has all options of the old one.
* `Registry.Gains.fails`: the reasons for which a command line fails.
* `Registry.compatible_of_inserts`: a definition with one more option is compatible with the old
  one.
-/

namespace CommandLine

/-! ## Renumbered groups -/

theorem Declaration.twin_renumber (number : Nat → Nat) (option : Declaration) :
    option.Twin (option.renumber number) := by
  refine ⟨rfl, ?_, rfl, Option.isSome_map⟩
  rw [renumber, map_form_withGroups]

/-- Arguments keep their groups when the groups get other numbers. -/
theorem Regrouped.renumber {number : Nat → Nat} (hnumber : number.Injective)
    (arguments : List Declaration) :
    Regrouped arguments (arguments.map (Declaration.renumber number)) := by
  induction arguments with
  | nil => exact .nil
  | cons argument arguments ih =>
    refine .cons rfl (Declaration.twin_renumber number argument).isOptional ?_ ih
    have hnext : (arguments.map (Declaration.renumber number)).head?.bind Declaration.group =
        (arguments.head?.bind Declaration.group).map number := by
      cases arguments <;> rfl
    rw [hnext]
    exact (Option.map_injective hnumber).eq_iff.symm

namespace Registry

variable {registry other : Registry} {extra : Declaration} {tokens : List Text}
  {pieces : List Piece} {reason : Misfit}

/-- The other registry has one option more, with new names, which may be left out and is no
    argument. The groups may have other numbers. -/
structure Gains (registry other : Registry) (extra : Declaration) : Prop where
  isArgument : extra.isArgument = false
  isOptional : extra.isOptional = true
  new : ∀ name ∈ extra.names, name ∉ registry.names
  options : ∃ (number : Nat → Nat) (first rest : List Declaration), number.Injective ∧
    registry.options = first ++ rest ∧
    other.options = first.map (Declaration.renumber number) ++
      extra :: rest.map (Declaration.renumber number)

theorem Owned.exists_owner {owners : List Declaration} {forms : List Form}
    (h : registry.Owned owners forms) {form : Form} (hform : form ∈ forms) :
    ∃ owner, registry.Declares owner form := by
  induction h with
  | nil => cases hform
  | cons howner _ ih =>
    rcases List.mem_cons.1 hform with rfl | hform
    · exact ⟨_, howner⟩
    · exact ih hform

/-- What a command line mentions is declared. -/
theorem Reads.exists_declares (hreads : registry.Reads tokens pieces) {piece : Piece}
    (hpiece : piece ∈ pieces) {form : Form} (hmentioned : form ∈ piece.mentioned) :
    ∃ option, registry.Declares option form := by
  cases piece with
  | positional => cases hmentioned
  | terminator => cases hmentioned
  | option token value said =>
    cases hreads.admits hpiece rfl with
    | option hshape howners hvalue =>
      rw [mentioned_option hshape] at hmentioned
      exact howners.exists_owner hmentioned

namespace Gains

theorem extra_mem (h : registry.Gains other extra) : extra ∈ other.options := by
  obtain ⟨number, first, rest, -, -, hoptions⟩ := h.options
  simp [hoptions]

theorem exists_twin (h : registry.Gains other extra) :
    ∀ option ∈ registry.options, ∃ twin ∈ other.options, option.Twin twin := by
  obtain ⟨number, first, rest, -, hold, hoptions⟩ := h.options
  intro option hoption
  refine ⟨option.renumber number, ?_, option.twin_renumber number⟩
  rw [hold] at hoption
  rw [hoptions, List.mem_append, List.mem_cons]
  rcases List.mem_append.1 hoption with hoption | hoption
  · exact .inl (List.mem_map_of_mem hoption)
  · exact .inr (.inr (List.mem_map_of_mem hoption))

theorem eq_or_exists_twin (h : registry.Gains other extra) :
    ∀ twin ∈ other.options, twin = extra ∨ ∃ option ∈ registry.options, option.Twin twin := by
  obtain ⟨number, first, rest, -, hold, hoptions⟩ := h.options
  intro twin htwin
  rw [hoptions, List.mem_append, List.mem_cons] at htwin
  rcases htwin with htwin | rfl | htwin
  · obtain ⟨option, hoption, rfl⟩ := List.mem_map.1 htwin
    exact .inr ⟨option, by simp [hold, hoption], option.twin_renumber number⟩
  · exact .inl rfl
  · obtain ⟨option, hoption, rfl⟩ := List.mem_map.1 htwin
    exact .inr ⟨option, by simp [hold, hoption], option.twin_renumber number⟩

theorem arguments_eq (h : registry.Gains other extra) :
    ∃ number : Nat → Nat, number.Injective ∧
      other.arguments = registry.arguments.map (Declaration.renumber number) := by
  obtain ⟨number, first, rest, hnumber, hold, hoptions⟩ := h.options
  refine ⟨number, hnumber, ?_⟩
  rw [arguments, arguments, hold, hoptions, List.filter_append,
    List.filter_cons_of_neg (by simp [h.isArgument]), List.filter_map, List.filter_map,
    ← List.map_append, List.filter_append]
  rfl

/-- The extended registry has all options of the old one, and the new option may be left out. -/
theorem adopts (h : registry.Gains other extra) : registry.Adopts other where
  arguments := by
    obtain ⟨number, hnumber, harguments⟩ := h.arguments_eq
    rw [harguments]
    exact .renumber hnumber registry.arguments
  twins option hoption _ := h.exists_twin option hoption
  mandatory twin htwin _ hmandatory := by
    rcases h.eq_or_exists_twin twin htwin with rfl | hold
    · rw [h.isOptional] at hmandatory
      cases hmandatory
    · exact hold

theorem mem_names_iff (h : registry.Gains other extra) {name : Text} :
    name ∈ other.names ↔ name ∈ extra.names ∨ name ∈ registry.names := by
  simp only [Registry.names, List.mem_flatMap]
  constructor
  · rintro ⟨twin, htwin, hname⟩
    rcases h.eq_or_exists_twin twin htwin with rfl | ⟨option, hoption, hsame⟩
    · exact .inl hname
    · exact .inr ⟨option, hoption, hsame.mem_names_iff.1 hname⟩
  · rintro (hname | ⟨option, hoption, hname⟩)
    · exact ⟨extra, h.extra_mem, hname⟩
    · obtain ⟨twin, htwin, hsame⟩ := h.exists_twin option hoption
      exact ⟨twin, htwin, hsame.mem_names_iff.2 hname⟩

/-! ## Reasons -/

/-- A form is refused for the same reason, unless its name is new. -/
theorem refuses (h : registry.Gains other extra) {form : Form}
    (hrefuses : registry.Refuses form reason)
    (hreason : ∀ form : Form, form.name ∈ extra.names → reason ≠ .unknown form.render) :
    other.Refuses form reason := by
  cases hrefuses with
  | unknown hname =>
    refine .unknown fun hmem => ?_
    rcases h.mem_names_iff.1 hmem with hnew | hold
    · exact hreason form hnew rfl
    · exact hname hold
  | wrongForm hname hforms =>
    refine .wrongForm (h.mem_names_iff.2 (.inr hname)) ?_
    rintro twin ⟨htwin, hform⟩
    rcases h.eq_or_exists_twin twin htwin with rfl | ⟨option, hoption, hsame⟩
    · exact h.new form.name (List.mem_map_of_mem hform) hname
    · exact hforms option ⟨hoption, hsame.forms_perm.mem_iff.1 hform⟩

/-- The first token that does not fit stays the same. -/
theorem firstMisfit (hwell : registry.WellFormed) (h : registry.Gains other extra)
    (hmisfit : registry.FirstMisfit tokens reason)
    (hreason : ∀ form : Form, form.name ∈ extra.names → reason ≠ .unknown form.render) :
    other.FirstMisfit tokens reason := by
  induction hmisfit with
  | here hshape hoffends =>
    refine .here hshape ?_
    cases hoffends with
    | refused hrefused =>
      obtain ⟨owners, front, form, rest, hforms, howners, hrefuses⟩ := hrefused
      obtain ⟨twins, htwins, -⟩ := howners.exists_twins hwell h.adopts fun form hform =>
        kind_ne_argument_of_mem_forms (by
          rw [hforms]
          exact List.mem_append_left _ hform)
      exact .refused ⟨twins, front, form, rest, hforms, htwins, h.refuses hrefuses hreason⟩
    | unfed howners hasks hform =>
      obtain ⟨twins, hforms, htwins⟩ :=
        howners.exists_twins hwell h.adopts fun _ => kind_ne_argument_of_mem_forms
      exact .unfed hforms ((asksValue_of_twins htwins).trans hasks) hform
  | later hpiece _ ih => exact .later (hpiece.adopt hwell h.adopts) (ih hreason)

/-- The options in front of an option are in front of it still, perhaps with the new one among
    them. -/
theorem exists_options_eq (h : registry.Gains other extra) {front rest : List Declaration}
    {option : Declaration} (hoptions : registry.options = front ++ option :: rest) :
    ∃ front' twin rest', other.options = front' ++ twin :: rest' ∧ option.Twin twin ∧
      ∀ beside ∈ front', beside = extra ∨ ∃ old ∈ front, old.Twin beside := by
  obtain ⟨number, first, last, -, hold, hother⟩ := h.options
  have htwins : ∀ olds : List Declaration, (∀ old ∈ olds, old ∈ front) →
      ∀ beside ∈ olds.map (Declaration.renumber number),
        beside = extra ∨ ∃ old ∈ front, old.Twin beside := by
    intro olds holds beside hbeside
    obtain ⟨old, hmem, rfl⟩ := List.mem_map.1 hbeside
    exact .inr ⟨old, holds old hmem, old.twin_renumber number⟩
  -- the option is found in the first row, or in the second row behind the new option
  have hsplit : (∃ inner, front = first ++ inner ∧ last = inner ++ option :: rest) ∨
      ∃ inner, first = front ++ option :: inner ∧ rest = inner ++ last := by
    rw [hold, List.append_eq_append_iff] at hoptions
    rcases hoptions with hlast | ⟨inner, hfirst, hrest⟩
    · exact .inl hlast
    · cases inner with
      | nil => exact .inl ⟨[], by simpa using hfirst.symm, by simpa using hrest.symm⟩
      | cons head inner =>
        obtain ⟨rfl, rfl⟩ := List.cons.inj hrest
        exact .inr ⟨inner, hfirst, rfl⟩
  rcases hsplit with ⟨inner, rfl, rfl⟩ | ⟨inner, rfl, rfl⟩
  · refine ⟨first.map (Declaration.renumber number) ++
      extra :: inner.map (Declaration.renumber number), option.renumber number,
      rest.map (Declaration.renumber number), ?_, option.twin_renumber number,
      fun beside hbeside => ?_⟩
    · rw [hother, List.map_append, List.map_cons, List.append_assoc, List.cons_append]
    · rcases List.mem_append.1 hbeside with hbeside | hbeside
      · exact htwins first (fun _ => List.mem_append_left _) beside hbeside
      · rcases List.mem_cons.1 hbeside with rfl | hbeside
        · exact .inl rfl
        · exact htwins inner (fun _ => List.mem_append_right _) beside hbeside
  · refine ⟨front.map (Declaration.renumber number), option.renumber number,
      inner.map (Declaration.renumber number) ++ extra :: last.map (Declaration.renumber number),
      ?_, option.twin_renumber number, htwins front fun _ hmem => hmem⟩
    rw [hother, List.map_append, List.map_cons, List.append_assoc, List.cons_append]

/-- A command line fails for the same reason, unless a new name was unknown. -/
theorem fails (hwell : registry.WellFormed) (h : registry.Gains other extra)
    (hfails : registry.Fails tokens reason)
    (hreason : ∀ form : Form, form.name ∈ extra.names → reason ≠ .unknown form.render) :
    other.Fails tokens reason := by
  cases hfails with
  | token hmisfit => exact .token (h.firstMisfit hwell hmisfit hreason)
  | @argument pieces argument hreads hargument =>
    have hname := congrArg (·[(positionals pieces).length]?)
      (map_name_mandatoryArguments h.adopts.arguments)
    simp only [List.getElem?_map, hargument, Option.map_some, Option.map_eq_some_iff] at hname
    obtain ⟨argument', hargument', hname⟩ := hname
    rw [← hname]
    exact .argument (hreads.adopt hwell h.adopts) hargument'
  | @option pieces front rest option hreads henough hoptions hfront hkind hmandatory hmissing =>
    obtain ⟨front', twin, rest', hoptions', htwin, hfront'⟩ := h.exists_options_eq hoptions
    rw [← htwin.name_eq]
    refine .option (hreads.adopt hwell h.adopts) ?_ hoptions' (fun beside hbeside => ?_)
      (htwin.isArgument_eq.trans hkind) (htwin.isOptional.trans hmandatory)
      (htwin.occursIn_iff.not.2 hmissing)
    · rw [length_mandatoryArguments h.adopts.arguments]
      exact henough
    · rcases hfront' beside hbeside with rfl | ⟨old, hold, hsame⟩
      · -- the new option may be left out
        intro _ hcase
        rw [h.isOptional] at hcase
        cases hcase
      · exact hsame.isGiven_iff.2 (hfront old hold)

/-! ## Bindings -/

/-- A command line of the old registry does not mention the new option. -/
theorem not_occursIn (h : registry.Gains other extra) (hreads : registry.Reads tokens pieces) :
    ¬ extra.OccursIn pieces := by
  rintro ⟨piece, hpiece, form, hmentioned, hform⟩
  obtain ⟨option, hoption⟩ := hreads.exists_declares hpiece hmentioned
  exact h.new form.name (List.mem_map_of_mem hform)
    (Registry.mem_names_iff.2 ⟨option, form, hoption, rfl⟩)

theorem get?_matchOf_extra (hwell : registry.WellFormed) (hother : other.WellFormed)
    (h : registry.Gains other extra) (hreads : registry.Reads tokens pieces) {name : Text}
    (hname : name ∈ extra.names) : (other.matchOf pieces).get? name = extra.default? := by
  rw [Registry.get?_matchOf hother pieces h.extra_mem hname]
  exact settle_of_not_occursIn hother (hreads.adopt hwell h.adopts) h.extra_mem h.isArgument
    (h.not_occursIn hreads)

end Gains

/-! ## Compatibility -/

/-- Command lines that match one registry match the other, with the same bindings and the default of
    one more option under its names. Those that do not match one fail on the other for the same
    reason, unless it is that one of these names is unknown. -/
structure Compatible (registry other : Registry) (extra : Declaration) : Prop where
  fits : ∀ tokens found, registry.fit tokens = .ok found → ∃ found' default,
    other.fit tokens = .ok found' ∧ found'.remaining = found.remaining ∧
      extra.default? = some default ∧
      ∀ name, found'.get? name = if name ∈ extra.names then some default else found.get? name
  fails : ∀ tokens reason, registry.fit tokens = .error reason →
    (∀ form : Form, form.name ∈ extra.names → reason ≠ .unknown form.render) →
      other.fit tokens = .error reason

theorem Gains.compatible (hwell : registry.WellFormed) (hother : other.WellFormed)
    (h : registry.Gains other extra) : registry.Compatible other extra where
  fits tokens found hfit := by
    obtain ⟨pieces, hreads, henough, hgiven⟩ := fits_of_fit hwell hfit
    rw [fit_of_fits hwell hreads henough hgiven] at hfit
    obtain rfl := Except.ok.inj hfit
    obtain ⟨default, hdefault⟩ :=
      Option.isSome_iff_exists.1 (default?_isSome_of_not_isArgument h.isArgument)
    refine ⟨_, default, h.adopts.fit_of_fits hwell hother hreads henough hgiven,
      h.adopts.remaining_matchOf hwell hother pieces, hdefault, fun name => ?_⟩
    split
    · next hname => rw [h.get?_matchOf_extra hwell hother hreads hname, hdefault]
    · next hname =>
      by_cases hold : name ∈ registry.names
      · exact h.adopts.get?_matchOf hwell hother hold pieces
      · have hnone : name ∉ other.names := fun hmem =>
          (h.mem_names_iff.1 hmem).elim hname hold
        rw [get?_matchOf_of_notMem hold, get?_matchOf_of_notMem hnone]
  fails tokens reason hfit hreason := by
    rcases fits_or_fails registry tokens with ⟨pieces, hreads, henough, hgiven⟩ | ⟨_, hfails⟩
    · rw [fit_of_fits hwell hreads henough hgiven] at hfit
      cases hfit
    · rw [fit_of_fails hwell hfails] at hfit
      obtain rfl := Except.error.inj hfit
      exact fit_of_fails hother (h.fails hwell hfails hreason)

/-- What a token with brackets of its own declares may be left out. -/
theorem isOptional_of_bracketed {body : Text} {alone : Registry}
    (hword : Text.IsWord (Brackets.bracketed true true body))
    (halone : Registry.read (Brackets.bracketed true true body) = .ok alone) :
    ∀ option ∈ alone.options, option.isOptional = true := by
  obtain ⟨-, -, hbody, -⟩ := Brackets.read_eq_ok_iff.1 (read_eq_of_isWord hword halone)
  intro option hoption
  rw [Declaration.isOptional, (Declaration.group_eq_of_ofBody hbody hoption).1]
  rfl

/-- A token with brackets of its own that declares a single option, which is no argument and has new
    names, may be put between any two tokens of a definition where no group is open. The definition
    is still accepted, and compatible with what it was before. -/
theorem compatible_of_inserts {definition extended before left right behind body : Text}
    {registry alone : Registry} {option : Declaration}
    (hread : Registry.read definition = .ok registry)
    (hword : Text.IsWord (Brackets.bracketed true true body))
    (halone : Registry.read (Brackets.bracketed true true body) = .ok alone)
    (hoption : alone.options = [option]) (hkind : option.isArgument = false)
    (hnew : ∀ name ∈ option.names, name ∉ registry.names)
    (hinserts : Text.Inserts (Brackets.bracketed true true body) definition extended before left
      right behind)
    (hclosed : BracketsFit false (Text.words before)) :
    ∃ other, Registry.read extended = .ok other ∧ registry.Compatible other option := by
  obtain ⟨number, first, rest, opened, hnumber, hoptions, hextended⟩ :=
    read_of_inserts hread hword halone hoption hnew hinserts hclosed
  refine ⟨_, hextended, ?_⟩
  have hoptional : option.isOptional = true :=
    isOptional_of_bracketed hword halone option (by simp [hoption])
  have hnames : (option.renumber (opened + ·)).names = option.names := option.names_renumber _
  have hgains : Gains registry ⟨first.map (Declaration.renumber number) ++
      option.renumber (opened + ·) :: rest.map (Declaration.renumber number),
      registry.description⟩ (option.renumber (opened + ·)) :=
    ⟨hkind, (option.twin_renumber _).isOptional.trans hoptional, by rwa [hnames], number, first,
      rest, hnumber, hoptions, rfl⟩
  -- the number of its group is no concern of the option
  obtain ⟨hfits, hfails⟩ := hgains.compatible (wellFormed_of_read hread)
    (wellFormed_of_read hextended)
  rw [hnames] at hfits hfails
  exact ⟨hfits, hfails⟩

/-- Here the new option stands between two groups that are tried for one mandatory argument, behind
    the place where the second one begins. -/
theorem compatible_of_option_between_groups : ∃ registry,
    Registry.read ['-', 'v', ' ', '[', 'a', ']', ' ', '[', 'b', ' ', 'c', ']', ' ', 'd', ' ', '-', '-',
        ' ', 't'] = .ok registry ∧
      ∃ other, Registry.read ['-', 'v', ' ', '[', 'a', ']', ' ', '[', '-', '-', 'x', '=', '|', '-', 'y',
          '=', ']', ' ', '[', 'b', ' ', 'c', ']', ' ', 'd', ' ', '-', '-', ' ', 't'] = .ok other ∧
        registry.Compatible other
          ⟨⟨.long, ['x']⟩, [⟨⟨.short, ['y']⟩, true, some 1⟩], true, some 1⟩ := by
  have h : Registry.read ['-', 'v', ' ', '[', 'a', ']', ' ', '[', 'b', ' ', 'c', ']', ' ', 'd', ' ',
      '-', '-', ' ', 't'] =
    .ok ⟨[⟨⟨.short, ['v']⟩, [], false, none⟩, ⟨⟨.argument, ['a']⟩, [], false, some 1⟩,
      ⟨⟨.argument, ['b']⟩, [], false, some 2⟩, ⟨⟨.argument, ['c']⟩, [], false, some 2⟩,
      ⟨⟨.argument, ['d']⟩, [], false, none⟩], some ['t']⟩ := rfl
  have halone : Registry.read
      (Brackets.bracketed true true ['-', '-', 'x', '=', '|', '-', 'y', '=']) =
    .ok ⟨[⟨⟨.long, ['x']⟩, [⟨⟨.short, ['y']⟩, true, some 1⟩], true, some 1⟩], none⟩ := rfl
  have hword : Text.IsWord
      (Brackets.bracketed true true ['-', '-', 'x', '=', '|', '-', 'y', '=']) :=
    ⟨by decide, fun c hc => Bool.eq_false_iff.2 (List.any_eq_false.1 rfl c hc)⟩
  have hinserts : Text.Inserts
      (Brackets.bracketed true true ['-', '-', 'x', '=', '|', '-', 'y', '='])
      ['-', 'v', ' ', '[', 'a', ']', ' ', '[', 'b', ' ', 'c', ']', ' ', 'd', ' ', '-', '-', ' ', 't']
      ['-', 'v', ' ', '[', 'a', ']', ' ', '[', '-', '-', 'x', '=', '|', '-', 'y', '=', ']', ' ', '[',
        'b', ' ', 'c', ']', ' ', 'd', ' ', '-', '-', ' ', 't']
      ['-', 'v', ' ', '[', 'a', ']', ' '] [] [' ']
      ['[', 'b', ' ', 'c', ']', ' ', 'd', ' ', '-', '-', ' ', 't'] :=
    ⟨rfl, rfl, by decide, by simp, .inl rfl, .inl rfl, .inr (by simp)⟩
  exact ⟨_, h, compatible_of_inserts h hword halone rfl rfl (by decide) hinserts
    ⟨by decide, by decide, by decide, by decide, rfl⟩⟩

end Registry

end CommandLine

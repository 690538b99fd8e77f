import CommandLine.Proofs.Matching.Conservation

/-!
# Writing down what options are to be

Any choice of bindings that a registry allows can be written as a command line, and matching reads
it back. The options that are chosen come first, in any order, each in any of its forms; then come
the terminator and the tokens for the arguments. No token that is written for one option is taken
for another option, for a value or for the terminator, whatever the values are. The one form that
cannot be written is the letter `-`, whose token is the terminator.

Results:
* `Registry.reads_written`: the command line is read as it was written.
* `readingsOf_said`: it says about each option what was chosen for it.
* `Registry.fit_of_choices`: the match holds the choices and the tokens for the arguments.
-/

namespace CommandLine

/-! ## Choices -/

/-- How an option that is no argument is given, or that it is left out. -/
inductive Setting (option : Declaration) where
  /-- It is left out, as it may be. -/
  | absent (hoptional : option.isOptional = true)
  /-- It is switched on by a long form. -/
  | switched (form : Form) (hform : form ∈ option.forms) (hkind : form.kind = .long)
      (hvalue : option.takesValue = false)
  /-- It is given so many times by a short form. -/
  | counted (form : Form) (hform : form ∈ option.forms) (hkind : form.kind = .short)
      (hvalue : option.takesValue = false) (times : Nat) (htimes : 0 < times)
  /-- It is given a value, behind any of its forms. -/
  | given (form : Form) (hform : form ∈ option.forms) (hvalue : option.takesValue = true)
      (text : Text)

namespace Setting

variable {option : Declaration}

/-- The tokens that state the setting. -/
def tokens : Setting option → List Text
  | .absent _ => []
  | .switched form _ _ _ => [form.render]
  | .counted form _ _ _ times _ => List.replicate times form.render
  | .given form _ _ text => [form.render, text]

/-- What the option is to be bound to. -/
def binding : Setting option → Option Binding
  | .absent _ => option.default?
  | .switched _ _ _ _ => some (.flag true)
  | .counted _ _ _ _ times _ => some (.count times)
  | .given _ _ _ text => some (.value (some text))

end Setting

/-- An option with its setting. -/
structure Choice where
  option : Declaration
  setting : Setting option

/-- The tokens that state the choices, one after the other. -/
def written (choices : List Choice) : List Text :=
  choices.flatMap fun choice => choice.setting.tokens

/-! ## One setting -/

/-- What a form says about an option without a value. -/
def Form.reading (form : Form) : Reading :=
  if form.kind = .long then .switched else .counted

/-- The piece that mentions an option once in this form, with a value or without. -/
def Declaration.piece (option : Declaration) (form : Form) (value : Option Text) : Piece :=
  .option form.render value [⟨option.name, value.elim form.reading .given⟩]

namespace Setting

variable {option : Declaration}

/-- The pieces that the tokens of a setting are read as. -/
def pieces : Setting option → List Piece
  | .absent _ => []
  | .switched form _ _ _ => [option.piece form none]
  | .counted form _ _ _ times _ => List.replicate times (option.piece form none)
  | .given form _ _ text => [option.piece form (some text)]

/-- What a setting says about its option. -/
def readings : Setting option → List Reading
  | .absent _ => []
  | .switched _ _ _ _ => [.switched]
  | .counted _ _ _ _ times _ => List.replicate times .counted
  | .given _ _ _ text => [.given text]

theorem flatMap_tokens_pieces (setting : Setting option) :
    setting.pieces.flatMap Piece.tokens = setting.tokens := by
  cases setting with
  | absent => rfl
  | switched => rfl
  | given => rfl
  | counted form =>
    rw [pieces, tokens, List.flatMap_replicate]
    exact List.flatten_replicate_singleton

theorem occurrences_pieces (setting : Setting option) :
    occurrences setting.pieces = setting.readings.map fun reading => ⟨option.name, reading⟩ := by
  cases setting with
  | absent => rfl
  | given => rfl
  | switched form hform hkind =>
    simp [pieces, readings, occurrences, Declaration.piece, Piece.occurrences, Form.reading, hkind]
  | counted form hform hkind =>
    have hpiece : (option.piece form none).occurrences = [⟨option.name, .counted⟩] := by
      simp [Declaration.piece, Piece.occurrences, Form.reading, hkind]
    rw [pieces, readings, occurrences, List.flatMap_replicate, hpiece, List.map_replicate]
    exact List.flatten_replicate_singleton

theorem positionals_pieces (setting : Setting option) : positionals setting.pieces = [] := by
  rw [positionals, List.filterMap_eq_nil_iff]
  intro piece hpiece
  cases setting with
  | absent => cases hpiece
  | switched => rw [List.mem_singleton.1 hpiece]; rfl
  | counted => rw [List.eq_of_mem_replicate hpiece]; rfl
  | given => rw [List.mem_singleton.1 hpiece]; rfl

end Setting

theorem Binding.ofReadings_replicate_counted (times : Nat) :
    Binding.ofReadings (List.replicate (times + 1) .counted) = some (.count (times + 1)) := by
  induction times with
  | zero => rfl
  | succ times ih =>
    rw [List.replicate_succ', Binding.ofReadings_append_singleton, ih]
    rfl

/-- What a setting says amounts to its binding. -/
theorem Setting.ofReadings_readings {option : Declaration} (setting : Setting option) :
    (Binding.ofReadings setting.readings).or option.default? = setting.binding := by
  cases setting with
  | absent => rfl
  | switched => rfl
  | given => rfl
  | counted form hform hkind hvalue times htimes =>
    obtain ⟨before, rfl⟩ : ∃ before, times = before + 1 := ⟨times - 1, by omega⟩
    rw [readings, Binding.ofReadings_replicate_counted]
    rfl

/-- Only an option that may be left out has a setting that says nothing. -/
theorem Setting.readings_ne_nil {option : Declaration} (setting : Setting option)
    (hmandatory : option.isOptional = false) : setting.readings ≠ [] := by
  cases setting with
  | absent hoptional =>
    rw [hmandatory] at hoptional
    cases hoptional
  | switched => simp [readings]
  | counted form hform hkind hvalue times htimes => simp [readings]; omega
  | given => simp [readings]

/-! ## Reading the tokens -/

namespace Registry

variable {registry : Registry} {option : Declaration}

/-- The token of a form mentions this form, unless it is the letter `-`. -/
theorem exists_mention_of_declares (h : registry.WellFormed) {form : Form}
    (hform : registry.Declares option form) (hkind : form.kind ≠ .argument)
    (hdash : form ≠ ⟨.short, ['-']⟩) :
    ∃ mention : Mention, Shape.ofToken form.render = .mention mention ∧ mention.forms = [form] ∧
      mention.reading = form.reading := by
  have hletter := (h.options option hform.1).letter form hform.2
  have hname := name_ne_nil_of_declares h hform
  obtain ⟨kind, name⟩ := form
  cases kind with
  | argument => exact absurd rfl hkind
  | long =>
    obtain ⟨c, rest, rfl⟩ := List.exists_cons_of_ne_nil hname
    exact ⟨.long (c :: rest), rfl, rfl, rfl⟩
  | short =>
    obtain ⟨letter, rfl⟩ : ∃ letter, name = [letter] := List.length_eq_one_iff.1 (hletter rfl)
    refine ⟨.short [letter], ?_, rfl, rfl⟩
    have hne : letter ≠ '-' := by
      rintro rfl
      exact hdash rfl
    simp [Form.render, Shape.ofToken, hne]

/-- A piece with one form fits if its option takes a value just if there is one. -/
theorem admits_piece (h : registry.WellFormed) {form : Form}
    (hform : registry.Declares option form) (hkind : form.kind ≠ .argument)
    (hdash : form ≠ ⟨.short, ['-']⟩) {value : Option Text}
    (hvalue : value.isSome = option.takesValue) : registry.Admits (option.piece form value) := by
  obtain ⟨mention, hshape, hforms, hreading⟩ := exists_mention_of_declares h hform hkind hdash
  have howners : registry.Owned [option] mention.forms := by
    rw [hforms]
    exact .cons hform .nil
  have hsaid : mention.said [option] value =
      [⟨option.name, value.elim form.reading .given⟩] := by
    cases value with
    | none => simp [Mention.said, Mention.plain, hreading]
    | some text => simp [Mention.said]
  have hadmits : registry.Admits (.option form.render value (mention.said [option] value)) :=
    .option hshape howners (by rw [asksValue_singleton, hvalue])
  rwa [hsaid] at hadmits

/-- The pieces of a setting fit. -/
theorem admits_of_mem_pieces (h : registry.WellFormed) (hoption : option ∈ registry.options)
    (hkind : option.isArgument = false) (hdash : (⟨.short, ['-']⟩ : Form) ∉ option.forms)
    (setting : Setting option) {piece : Piece} (hpiece : piece ∈ setting.pieces) :
    registry.Admits piece := by
  have hadmits : ∀ form ∈ option.forms, ∀ value : Option Text, value.isSome = option.takesValue →
      registry.Admits (option.piece form value) := by
    intro form hform value hvalue
    refine admits_piece h ⟨hoption, hform⟩ ?_ ?_ hvalue
    · exact (h.options option hoption).kind_ne_argument hkind hform
    · rintro rfl
      exact hdash hform
  cases setting with
  | absent => cases hpiece
  | switched form hform _ hvalue =>
    obtain rfl := List.mem_singleton.1 hpiece
    exact hadmits form hform none hvalue.symm
  | counted form hform _ hvalue =>
    obtain rfl := List.eq_of_mem_replicate hpiece
    exact hadmits form hform none hvalue.symm
  | given form hform hvalue text =>
    obtain rfl := List.mem_singleton.1 hpiece
    exact hadmits form hform (some text) hvalue.symm

end Registry

/-! ## Several choices -/

/-- The pieces of a command line that states the choices and ends with these tokens. -/
def piecesOf (choices : List Choice) (tokens : List Text) : List Piece :=
  (choices.flatMap fun choice => choice.setting.pieces) ++
    .terminator :: tokens.map .positional

/-- What the choices say about their options. -/
def said (choices : List Choice) : List Occurrence :=
  choices.flatMap fun choice =>
    choice.setting.readings.map fun reading => ⟨choice.option.name, reading⟩

theorem positionals_piecesOf (choices : List Choice) (tokens : List Text) :
    positionals (piecesOf choices tokens) = tokens := by
  unfold piecesOf
  rw [positionals_append, positionals_cons, positionals_map_positional]
  induction choices with
  | nil => rfl
  | cons choice choices ih =>
    rw [List.flatMap_cons, positionals_append, choice.setting.positionals_pieces]
    exact ih

theorem occurrences_piecesOf (choices : List Choice) (tokens : List Text) :
    occurrences (piecesOf choices tokens) = said choices := by
  unfold piecesOf
  rw [occurrences_append, occurrences_cons, occurrences_map_positional]
  induction choices with
  | nil => rfl
  | cons choice choices ih =>
    rw [List.flatMap_cons, occurrences_append, choice.setting.occurrences_pieces,
      List.append_assoc, ih]
    rfl

theorem readingsOf_append (owner : Text) (front rest : List Occurrence) :
    readingsOf owner (front ++ rest) = readingsOf owner front ++ readingsOf owner rest := by
  simp [readingsOf]

theorem readingsOf_map_self (owner : Text) (readings : List Reading) :
    readingsOf owner (readings.map fun reading => ⟨owner, reading⟩) = readings := by
  simp [readingsOf, List.filter_map, Function.comp_def]

theorem readingsOf_map_of_ne {owner other : Text} (h : other ≠ owner) (readings : List Reading) :
    readingsOf owner (readings.map fun reading => ⟨other, reading⟩) = [] := by
  simp [readingsOf, List.filter_map, Function.comp_def, h]

theorem said_cons (choice : Choice) (choices : List Choice) :
    said (choice :: choices) =
      (choice.setting.readings.map fun reading => ⟨choice.option.name, reading⟩) ++
        said choices := rfl

theorem readingsOf_said_of_ne {owner : Text} {choices : List Choice}
    (h : ∀ choice ∈ choices, choice.option.name ≠ owner) :
    readingsOf owner (said choices) = [] := by
  induction choices with
  | nil => rfl
  | cons choice choices ih =>
    rw [said_cons, readingsOf_append, readingsOf_map_of_ne (h choice List.mem_cons_self),
      List.nil_append]
    exact ih fun other hother => h other (List.mem_cons_of_mem _ hother)

/-- The choices say about each option what its own setting says. -/
theorem readingsOf_said {choices : List Choice}
    (hnames : (choices.map fun choice => choice.option.name).Nodup) {choice : Choice}
    (h : choice ∈ choices) :
    readingsOf choice.option.name (said choices) = choice.setting.readings := by
  induction choices with
  | nil => cases h
  | cons first choices ih =>
    rw [List.map_cons, List.nodup_cons] at hnames
    obtain ⟨hfirst, hnames⟩ := hnames
    have hne : ∀ other ∈ choices, other.option.name ≠ first.option.name := by
      intro other hother heq
      apply hfirst
      rw [← heq]
      exact List.mem_map_of_mem (f := fun choice => choice.option.name) hother
    rw [said_cons, readingsOf_append]
    rcases List.mem_cons.1 h with rfl | h
    · rw [readingsOf_map_self, readingsOf_said_of_ne hne, List.append_nil]
    · rw [readingsOf_map_of_ne (hne choice h).symm, ih hnames h, List.nil_append]

namespace Registry

variable {registry : Registry} {choices : List Choice}

/-- A command line that states choices is read as it was written. -/
theorem reads_written (h : registry.WellFormed)
    (hoptions : ∀ choice ∈ choices, choice.option ∈ registry.options ∧
      choice.option.isArgument = false)
    (hdash : ∀ option ∈ registry.options, (⟨.short, ['-']⟩ : Form) ∉ option.forms)
    (tokens : List Text) :
    registry.Reads (written choices ++ ['-', '-'] :: tokens) (piecesOf choices tokens) := by
  have hwritten : written choices =
      (choices.flatMap fun choice => choice.setting.pieces).flatMap Piece.tokens := by
    rw [List.flatMap_assoc, written]
    simp only [Setting.flatMap_tokens_pieces]
  rw [hwritten]
  apply Reads.append _ (.ended tokens)
  intro piece hpiece
  obtain ⟨choice, hchoice, hmem⟩ := List.mem_flatMap.1 hpiece
  obtain ⟨hoption, hkind⟩ := hoptions choice hchoice
  exact admits_of_mem_pieces h hoption hkind (hdash _ hoption) choice.setting hmem

/-- An option is settled on what was chosen for it. -/
theorem settle_piecesOf (hnames : (choices.map fun choice => choice.option.name).Nodup)
    {choice : Choice} (hchoice : choice ∈ choices) (hkind : choice.option.isArgument = false)
    (tokens : List Text) :
    registry.settle (piecesOf choices tokens) choice.option = choice.setting.binding := by
  rw [settle, Declaration.settled?, Declaration.bound?_of_not_isArgument hkind,
    occurrences_piecesOf, readingsOf_said hnames hchoice, Setting.ofReadings_readings]

/-- The choices are for different options. -/
theorem nodup_names_of_perm (h : registry.WellFormed)
    (hchoices : (choices.map Choice.option).Perm
      (registry.options.filter fun option => !option.isArgument)) :
    (choices.map fun choice => choice.option.name).Nodup := by
  have hperm := hchoices.map Declaration.name
  rw [List.map_map] at hperm
  apply hperm.nodup_iff.2
  exact (List.filter_sublist.map Declaration.name).nodup h.nodup_map_name

/-- No mandatory option is missing. -/
theorem isGiven_piecesOf (h : registry.WellFormed)
    (hchoices : (choices.map Choice.option).Perm
      (registry.options.filter fun option => !option.isArgument))
    {line tokens : List Text} (hreads : registry.Reads line (piecesOf choices tokens))
    {option : Declaration} (hoption : option ∈ registry.options) :
    option.IsGiven (piecesOf choices tokens) := by
  intro hkind hmandatory
  have hmem : option ∈ choices.map Choice.option :=
    hchoices.mem_iff.2 (by simp [hoption, hkind])
  obtain ⟨choice, hchoice, rfl⟩ := List.mem_map.1 hmem
  by_contra hmissing
  have hnil := (hreads.readingsOf_eq_nil_iff h.distinct hoption).2 hmissing
  rw [occurrences_piecesOf, readingsOf_said (nodup_names_of_perm h hchoices) hchoice] at hnil
  exact choice.setting.readings_ne_nil hmandatory hnil

/-- Whatever is chosen for the options, and whatever tokens there are for the arguments as long as
    there are enough of them, is written as a command line whose match holds all of it. -/
theorem fit_of_choices {definition : Text} (hread : Registry.read definition = .ok registry)
    (hdash : ∀ option ∈ registry.options, (⟨.short, ['-']⟩ : Form) ∉ option.forms)
    (hchoices : (choices.map Choice.option).Perm
      (registry.options.filter fun option => !option.isArgument))
    {tokens : List Text} (henough : registry.mandatoryCount ≤ tokens.length) :
    ∃ found, registry.fit (written choices ++ ['-', '-'] :: tokens) = .ok found ∧
      (∀ choice ∈ choices, ∀ name ∈ choice.option.names,
        found.get? name = choice.setting.binding) ∧
      (registry.arguments.filterMap fun argument => found.get? argument.name) ++
        found.remaining.map .positional = tokens.map .positional := by
  have h := wellFormed_of_read hread
  have hoptions : ∀ choice ∈ choices, choice.option ∈ registry.options ∧
      choice.option.isArgument = false := by
    intro choice hchoice
    have hmem := hchoices.mem_iff.1 (List.mem_map_of_mem hchoice)
    simpa using hmem
  have hreads := reads_written h hoptions hdash tokens
  have hpositionals := positionals_piecesOf choices tokens
  rw [mandatoryCount_eq, ← hpositionals] at henough
  refine ⟨registry.matchOf (piecesOf choices tokens), ?_, ?_, ?_⟩
  · apply fit_of_fits h hreads henough
    intro option hoption
    exact isGiven_piecesOf h hchoices hreads hoption
  · intro choice hchoice name hname
    obtain ⟨hoption, hkind⟩ := hoptions choice hchoice
    rw [get?_matchOf h _ hoption hname,
      settle_piecesOf (nodup_names_of_perm h hchoices) hchoice hkind]
  · have hshares := (sharesOut_matchOf h henough).inOrder
    rwa [hpositionals] at hshares

/-- Here a value and two of the tokens for the arguments look like option tokens, a switch is
    counted by an alias, and an option of a group is left out. -/
theorem fit_of_choices_with_dashes : ∃ registry choices,
    Registry.read ['-', 'v', '|', '-', '-', 'l', 'o', 'u', 'd', '|', '-', 'l', ' ', '-', '-', 'n', '=',
        '|', '-', 'm', '=', ' ', '[', '-', 'q', ' ', 'a', ']', ' ', 'b'] = .ok registry ∧
      (∀ option ∈ registry.options, (⟨.short, ['-']⟩ : Form) ∉ option.forms) ∧
      (choices.map Choice.option).Perm
        (registry.options.filter fun option => !option.isArgument) ∧
      registry.mandatoryCount ≤ [['-', 'x'], [], ['-', '-']].length ∧
      written choices = [['-', 'm'], ['-', '-'], ['-', 'l'], ['-', 'l']] ∧
      registry.fit [['-', 'm'], ['-', '-'], ['-', 'l'], ['-', 'l'], ['-', '-'], ['-', 'x'], [],
          ['-', '-']] =
        .ok ⟨[(['v'], .count 2), (['l', 'o', 'u', 'd'], .count 2), (['l'], .count 2),
          (['n'], .value (some ['-', '-'])), (['m'], .value (some ['-', '-'])), (['q'], .count 0),
          (['a'], .positional ['-', 'x']), (['b'], .positional [])], [['-', '-']]⟩ ∧
      ∃ found, registry.fit (written choices ++ ['-', '-'] :: [['-', 'x'], [], ['-', '-']]) =
          .ok found ∧
        (∀ choice ∈ choices, ∀ name ∈ choice.option.names,
          found.get? name = choice.setting.binding) ∧
        (registry.arguments.filterMap fun argument => found.get? argument.name) ++
            found.remaining.map .positional =
          [['-', 'x'], [], ['-', '-']].map Binding.positional := by
  let loud : Declaration :=
    ⟨⟨.short, ['v']⟩,
      [⟨⟨.long, ['l', 'o', 'u', 'd']⟩, false, none⟩, ⟨⟨.short, ['l']⟩, false, none⟩], false, none⟩
  let number : Declaration := ⟨⟨.long, ['n']⟩, [⟨⟨.short, ['m']⟩, true, none⟩], true, none⟩
  let quiet : Declaration := ⟨⟨.short, ['q']⟩, [], false, some 1⟩
  have h : Registry.read ['-', 'v', '|', '-', '-', 'l', 'o', 'u', 'd', '|', '-', 'l', ' ', '-', '-',
      'n', '=', '|', '-', 'm', '=', ' ', '[', '-', 'q', ' ', 'a', ']', ' ', 'b'] =
    .ok ⟨[loud, number, quiet, ⟨⟨.argument, ['a']⟩, [], false, some 1⟩,
      ⟨⟨.argument, ['b']⟩, [], false, none⟩], none⟩ := rfl
  let choices : List Choice :=
    [⟨number, .given ⟨.short, ['m']⟩ (by decide) rfl ['-', '-']⟩,
      ⟨loud, .counted ⟨.short, ['l']⟩ (by decide) rfl rfl 2 (by decide)⟩,
      ⟨quiet, .absent rfl⟩]
  exact ⟨_, choices, h, by decide, by decide, by decide, rfl, rfl,
    fit_of_choices h (by decide) (by decide) (by decide)⟩

end Registry

end CommandLine

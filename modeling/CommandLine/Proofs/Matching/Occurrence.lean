import CommandLine.Matching.Match
import CommandLine.Proofs.Matching.Position

/-!
# What a command line says about an option

An option occurs in a command line if one of its forms is mentioned, and then every occurrence says
something that its form and its need for a value allow: a switch is switched on by a long form, and
an option with a value is given a token, or a short form of it is counted. A single letter of an
option with a value is never counted, only a letter in a token with several.

Results:
* `Registry.Reads.readingsOf_eq_nil_iff`: nothing is said about an option that does not occur.
* `Registry.Reads.hears`: what is said about one that does.
-/

namespace CommandLine

/-! ## Occurring -/

/-- The forms that the token of a piece mentions. -/
def Piece.mentioned : Piece → List Form
  | .option token _ _ =>
    match Shape.ofToken token with
    | .mention mention => mention.forms
    | _ => []
  | _ => []

/-- The option is mentioned in one of its forms. -/
def Declaration.OccursIn (option : Declaration) (pieces : List Piece) : Prop :=
  ∃ piece ∈ pieces, ∃ form ∈ piece.mentioned, form ∈ option.forms

/-- What one occurrence in this piece may say about an option. -/
inductive Declaration.Hears (option : Declaration) (piece : Piece) : Reading → Prop
  /-- A long form of an option without a value switches it on. -/
  | switched {form : Form} (hmentioned : form ∈ piece.mentioned) (hform : form ∈ option.forms)
      (hkind : form.kind = .long) (hvalue : option.takesValue = false) :
      Hears option piece .switched
  /-- An option with a value is given the token behind its own. -/
  | given {text : Text} (htext : text ∈ piece.tokens) (hvalue : option.takesValue = true) :
      Hears option piece (.given text)
  /-- A short form is counted, but not the only letter of an option with a value. -/
  | counted {form : Form} (hmentioned : form ∈ piece.mentioned) (hform : form ∈ option.forms)
      (hkind : form.kind = .short)
      (hcombined : option.takesValue = true → 1 < piece.mentioned.length) :
      Hears option piece .counted

theorem readingsOf_eq_nil_iff {owner : Text} {occurrences : List Occurrence} :
    readingsOf owner occurrences = [] ↔ owner ∉ occurrences.map Occurrence.owner := by
  rw [readingsOf, List.map_eq_nil_iff, List.filter_eq_nil_iff]
  simp only [decide_eq_true_eq, List.mem_map, not_exists, not_and]

theorem mem_readingsOf_iff {owner : Text} {occurrences : List Occurrence} {reading : Reading} :
    reading ∈ readingsOf owner occurrences ↔ ⟨owner, reading⟩ ∈ occurrences := by
  rw [readingsOf, List.mem_map]
  constructor
  · rintro ⟨occurrence, hmem, rfl⟩
    obtain ⟨hoccurrence, howner⟩ := List.mem_filter.1 hmem
    obtain rfl : occurrence.owner = owner := by simpa using howner
    exact hoccurrence
  · exact fun hmem => ⟨_, List.mem_filter.2 ⟨hmem, by simp⟩, rfl⟩

namespace Registry

variable {registry : Registry}

theorem Declares.unique (hnames : registry.names.Nodup) {option other : Declaration}
    {form declared : Form} (h : registry.Declares option form)
    (hother : registry.Declares other declared) (hname : declared.name = form.name) :
    other = option ∧ declared = form := by
  have hlookup := (lookup_eq_some_iff hnames).2 ⟨h.1, h.2, rfl⟩
  rw [(lookup_eq_some_iff hnames).2 ⟨hother.1, hother.2, hname⟩] at hlookup
  exact Prod.mk.inj (Option.some.inj hlookup)

theorem declares_primary {option : Declaration} (h : option ∈ registry.options) :
    registry.Declares option option.primary :=
  ⟨h, List.mem_cons_self⟩

/-- The options are known by their primary names. -/
theorem eq_of_name_eq (hnames : registry.names.Nodup) {option other : Declaration}
    (h : option ∈ registry.options) (hother : other ∈ registry.options)
    (hname : other.name = option.name) : other = option :=
  (Declares.unique hnames (declares_primary h) (declares_primary hother) hname).1

theorem Owned.declares {owners : List Declaration} {forms : List Form}
    (h : registry.Owned owners forms) {owner : Declaration} (howner : owner ∈ owners) :
    ∃ form ∈ forms, registry.Declares owner form := by
  induction h with
  | nil => cases howner
  | cons hform _ ih =>
    rcases List.mem_cons.1 howner with rfl | howner
    · exact ⟨_, List.mem_cons_self, hform⟩
    · obtain ⟨form, hmem, hdeclares⟩ := ih howner
      exact ⟨form, List.mem_cons_of_mem _ hmem, hdeclares⟩

theorem Owned.mem_of_declares (hnames : registry.names.Nodup) {owners : List Declaration}
    {forms : List Form} (h : registry.Owned owners forms) {option : Declaration} {form : Form}
    (hmem : form ∈ forms) (hform : registry.Declares option form) : option ∈ owners := by
  induction h with
  | nil => cases hmem
  | cons hfirst _ ih =>
    rcases List.mem_cons.1 hmem with rfl | hmem
    · rw [(Declares.unique hnames hfirst hform rfl).1]
      exact List.mem_cons_self
    · exact List.mem_cons_of_mem _ (ih hmem)

/-! ## One token -/

theorem map_owner_plain (mention : Mention) (owners : List Declaration) :
    (owners.map mention.plain).map Occurrence.owner = owners.map Declaration.name := by
  rw [List.map_map]
  rfl

/-- A token says something about each option that it mentions, in order. -/
theorem map_owner_said {mention : Mention} {owners : List Declaration} {value : Option Text}
    (hvalue : value.isSome = asksValue owners) :
    (mention.said owners value).map Occurrence.owner = owners.map Declaration.name := by
  cases value with
  | none => exact map_owner_plain mention owners
  | some text =>
    have hne : owners ≠ [] := by
      rintro rfl
      cases hvalue
    obtain ⟨front, last, rfl⟩ := (List.eq_nil_or_concat' owners).resolve_left hne
    rw [Mention.said, List.dropLast_concat, List.getLast?_concat, List.map_append, map_owner_plain,
      List.map_append]
    rfl

theorem mentioned_option {token : Text} {mention : Mention}
    (h : Shape.ofToken token = .mention mention) (value : Option Text) (said : List Occurrence) :
    (Piece.option token value said).mentioned = mention.forms := by
  rw [Piece.mentioned, h]

/-- The forms of a token are of one kind, and a token has several of them only if it is short. -/
theorem kind_of_mem_forms {mention : Mention} {form : Form} (h : form ∈ mention.forms) :
    form.kind = .long ∧ mention.reading = .switched ∧ mention.forms.length = 1 ∨
      form.kind = .short ∧ mention.reading = .counted := by
  match mention with
  | .long name =>
    obtain rfl := List.mem_singleton.1 h
    exact .inl ⟨rfl, rfl, rfl⟩
  | .short [] =>
    obtain rfl := List.mem_singleton.1 h
    exact .inr ⟨rfl, rfl⟩
  | .short (letter :: letters) =>
    obtain ⟨_, -, rfl⟩ := List.mem_map.1 h
    exact .inr ⟨rfl, rfl⟩

theorem asksValue_singleton (owner : Declaration) : asksValue [owner] = owner.takesValue := by
  simp [asksValue]

/-- An option is spoken of plainly, for want of a value or because it stands with others, or it is
    given its value. -/
theorem mem_said {mention : Mention} {owners : List Declaration} {value : Option Text}
    {occurrence : Occurrence} (hvalue : value.isSome = asksValue owners)
    (h : occurrence ∈ mention.said owners value) :
    ∃ owner ∈ owners, occurrence.owner = owner.name ∧
      (occurrence.reading = mention.reading ∧ (owner.takesValue = true → 1 < owners.length) ∨
        ∃ text, value = some text ∧ occurrence.reading = .given text ∧
          owner.takesValue = true) := by
  cases value with
  | none =>
    obtain ⟨owner, howner, rfl⟩ := List.mem_map.1 h
    refine ⟨owner, howner, rfl, .inl ⟨rfl, fun htakes => ?_⟩⟩
    have hpos := List.length_pos_of_mem howner
    have hne : owners.length ≠ 1 := by
      intro hone
      obtain ⟨single, rfl⟩ := List.length_eq_one_iff.1 hone
      obtain rfl := List.mem_singleton.1 howner
      rw [asksValue_singleton, htakes] at hvalue
      cases hvalue
    omega
  | some text =>
    rcases List.mem_append.1 h with h | h
    · obtain ⟨owner, howner, rfl⟩ := List.mem_map.1 h
      have hpos := List.length_pos_of_mem howner
      rw [List.length_dropLast] at hpos
      exact ⟨owner, (List.dropLast_sublist owners).mem howner, rfl, .inl ⟨rfl, fun _ => by omega⟩⟩
    · obtain ⟨owner, howner, rfl⟩ := List.mem_map.1 h
      rw [Option.mem_toList] at howner
      have htakes : owner.takesValue = true := by
        have hasks : asksValue owners = true := hvalue.symm
        rw [asksValue, Bool.and_eq_true, Option.mem_def.1 howner] at hasks
        exact hasks.2
      exact ⟨owner, List.mem_of_getLast? howner, rfl, .inr ⟨text, rfl, rfl, htakes⟩⟩

/-- What an option token says about an option is something that the option may be told. -/
theorem hears_of_mem_said (hnames : registry.names.Nodup) {token : Text} {mention : Mention}
    {owners : List Declaration} {value : Option Text} {option : Declaration} {reading : Reading}
    (hshape : Shape.ofToken token = .mention mention)
    (howners : registry.Owned owners mention.forms) (hvalue : value.isSome = asksValue owners)
    (hoption : option ∈ registry.options)
    (h : ⟨option.name, reading⟩ ∈ mention.said owners value) :
    option.Hears (.option token value (mention.said owners value)) reading := by
  obtain ⟨owner, howner, hname, hreading⟩ := mem_said hvalue h
  obtain ⟨form, hform, hdeclares⟩ := howners.declares howner
  obtain rfl : owner = option := eq_of_name_eq hnames hoption hdeclares.1 hname.symm
  have hmentioned := mentioned_option hshape value (mention.said owners value)
  rcases hreading with ⟨rfl, hplain⟩ | ⟨text, rfl, rfl, htakes⟩
  · rw [howners.length_eq] at hplain
    rcases kind_of_mem_forms hform with ⟨hkind, hlong, hone⟩ | ⟨hkind, hshort⟩
    · have hnone : owner.takesValue = false := by
        by_contra htakes
        have := hplain (by simpa using htakes)
        omega
      rw [hlong]
      exact .switched (hmentioned ▸ hform) hdeclares.2 hkind hnone
    · rw [hshort]
      exact .counted (hmentioned ▸ hform) hdeclares.2 hkind fun htakes => hmentioned ▸ hplain htakes
  · exact .given (by simp [Piece.tokens]) htakes

/-- A piece says something about the options that it mentions, and about no others. -/
theorem Admits.mem_map_owner_iff (hnames : registry.names.Nodup) {piece : Piece}
    (hpiece : registry.Admits piece) {option : Declaration} (hoption : option ∈ registry.options) :
    option.name ∈ piece.occurrences.map Occurrence.owner ↔
      ∃ form ∈ piece.mentioned, form ∈ option.forms := by
  cases hpiece with
  | positional => simp [Piece.occurrences, Piece.mentioned]
  | @option token mention owners value hshape howners hvalue =>
    rw [Piece.occurrences, map_owner_said hvalue, mentioned_option hshape, List.mem_map]
    constructor
    · rintro ⟨owner, howner, hname⟩
      obtain ⟨form, hform, hdeclares⟩ := howners.declares howner
      obtain rfl : owner = option := eq_of_name_eq hnames hoption hdeclares.1 hname
      exact ⟨form, hform, hdeclares.2⟩
    · rintro ⟨form, hmem, hform⟩
      exact ⟨option, howners.mem_of_declares hnames hmem ⟨hoption, hform⟩, rfl⟩

/-! ## The whole command line -/

theorem Reads.mem_tokens {tokens : List Text} {pieces : List Piece}
    (hreads : registry.Reads tokens pieces) {piece : Piece} (hpiece : piece ∈ pieces) {text : Text}
    (htext : text ∈ piece.tokens) : text ∈ tokens := by
  induction hreads with
  | done => cases hpiece
  | ended rest =>
    rcases List.mem_cons.1 hpiece with rfl | hpiece
    · obtain rfl := List.mem_singleton.1 htext
      exact List.mem_cons_self
    · obtain ⟨token, htoken, rfl⟩ := List.mem_map.1 hpiece
      obtain rfl := List.mem_singleton.1 htext
      exact List.mem_cons_of_mem _ htoken
  | piece _ _ ih =>
    rcases List.mem_cons.1 hpiece with rfl | hpiece
    · exact List.mem_append_left _ htext
    · exact List.mem_append_right _ (ih hpiece)

theorem exists_piece_of_mem_occurrences {pieces : List Piece} {occurrence : Occurrence}
    (h : occurrence ∈ occurrences pieces) :
    ∃ piece ∈ pieces, piece.isOption = true ∧ occurrence ∈ piece.occurrences := by
  obtain ⟨piece, hpiece, hmem⟩ := List.mem_flatMap.1 h
  cases piece with
  | option => exact ⟨_, hpiece, rfl, hmem⟩
  | positional => cases hmem
  | terminator => cases hmem

/-- What is said about an option is something that the option may be told. -/
theorem Reads.hears (hnames : registry.names.Nodup) {tokens : List Text} {pieces : List Piece}
    (hreads : registry.Reads tokens pieces) {option : Declaration}
    (hoption : option ∈ registry.options) {reading : Reading}
    (h : reading ∈ readingsOf option.name (occurrences pieces)) :
    ∃ piece ∈ pieces, option.Hears piece reading := by
  obtain ⟨piece, hpiece, hisOption, hmem⟩ :=
    exists_piece_of_mem_occurrences (mem_readingsOf_iff.1 h)
  refine ⟨piece, hpiece, ?_⟩
  cases hreads.admits hpiece hisOption with
  | positional => cases hisOption
  | option hshape howners hvalue =>
    exact hears_of_mem_said hnames hshape howners hvalue hoption hmem

/-- Nothing is said about an option just if it does not occur. -/
theorem Reads.readingsOf_eq_nil_iff (hnames : registry.names.Nodup) {tokens : List Text}
    {pieces : List Piece} (hreads : registry.Reads tokens pieces) {option : Declaration}
    (hoption : option ∈ registry.options) :
    readingsOf option.name (occurrences pieces) = [] ↔ ¬ option.OccursIn pieces := by
  rw [CommandLine.readingsOf_eq_nil_iff, not_iff_not, List.mem_map]
  constructor
  · rintro ⟨occurrence, hmem, hname⟩
    obtain ⟨piece, hpiece, hisOption, hsaid⟩ := exists_piece_of_mem_occurrences hmem
    have howner : option.name ∈ piece.occurrences.map Occurrence.owner :=
      hname ▸ List.mem_map_of_mem hsaid
    exact ⟨piece, hpiece,
      ((hreads.admits hpiece hisOption).mem_map_owner_iff hnames hoption).1 howner⟩
  · rintro ⟨piece, hpiece, form, hmentioned, hform⟩
    have hisOption : piece.isOption = true := by
      cases piece with
      | option => rfl
      | positional => cases hmentioned
      | terminator => cases hmentioned
    obtain ⟨occurrence, hmem, hname⟩ := List.mem_map.1
      (((hreads.admits hpiece hisOption).mem_map_owner_iff hnames hoption).2
        ⟨form, hmentioned, hform⟩)
    exact ⟨occurrence, List.mem_flatMap.2 ⟨piece, hpiece, hmem⟩, hname⟩

end Registry

end CommandLine

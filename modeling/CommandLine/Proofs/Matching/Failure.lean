import CommandLine.Proofs.Matching.Allocation
import CommandLine.Proofs.Matching.Binding
import CommandLine.Proofs.Matching.Occurrence

/-!
# Why a command line does not match

There are three kinds of reasons, and they come in this order: a token that does not fit, a
mandatory argument for which there is no token, and any other mandatory option that does not occur.
Within each kind the first one counts, and without any of them the command line matches.

Results:
* `Registry.fits_or_fails`: a command line fits or fails.
* `Registry.fit_eq_error_iff`: the reason that is reported is the one for which it fails.
-/

namespace CommandLine

/-- The option is mentioned, unless it is an argument or may be left out. -/
def Declaration.IsGiven (option : Declaration) (pieces : List Piece) : Prop :=
  option.isArgument = false → option.isOptional = false → option.OccursIn pieces

namespace Registry

/-- A command line that is read to its end, with tokens for all mandatory arguments and with all
    other mandatory options. -/
def Fits (registry : Registry) (tokens : List Text) : Prop :=
  ∃ pieces, registry.Reads tokens pieces ∧
    registry.mandatoryArguments.length ≤ (positionals pieces).length ∧
    ∀ option ∈ registry.options, option.IsGiven pieces

/-- The reason for which a command line fails. -/
inductive Fails (registry : Registry) (tokens : List Text) : Misfit → Prop
  /-- A token does not fit. -/
  | token {reason : Misfit} (h : registry.FirstMisfit tokens reason) : Fails registry tokens reason
  /-- There are tokens for the mandatory arguments in front of this one only. -/
  | argument {pieces : List Piece} {argument : Declaration}
      (hreads : registry.Reads tokens pieces)
      (hargument : registry.mandatoryArguments[(positionals pieces).length]? = some argument) :
      Fails registry tokens (.argumentMissing argument.name)
  /-- Of the other mandatory options this is the first that does not occur. -/
  | option {pieces : List Piece} {front rest : List Declaration} {option : Declaration}
      (hreads : registry.Reads tokens pieces)
      (henough : registry.mandatoryArguments.length ≤ (positionals pieces).length)
      (hoptions : registry.options = front ++ option :: rest)
      (hfront : ∀ other ∈ front, other.IsGiven pieces)
      (hkind : option.isArgument = false) (hmandatory : option.isOptional = false)
      (hmissing : ¬ option.OccursIn pieces) : Fails registry tokens (.optionMissing option.name)

variable {registry : Registry} {tokens : List Text} {pieces : List Piece}

/-- A command line fits, or there is a reason for which it fails. -/
theorem fits_or_fails (registry : Registry) (tokens : List Text) :
    registry.Fits tokens ∨ ∃ reason, registry.Fails tokens reason := by
  classical
  rcases reads_or_firstMisfit registry tokens with ⟨pieces, hreads⟩ | ⟨reason, hmisfit⟩
  · by_cases henough : registry.mandatoryArguments.length ≤ (positionals pieces).length
    · cases hfind : registry.options.find? fun option => ¬ option.IsGiven pieces with
      | none =>
        rw [List.find?_eq_none] at hfind
        refine .inl ⟨pieces, hreads, henough, fun option hoption => ?_⟩
        simpa using hfind option hoption
      | some option =>
        obtain ⟨hoption, front, rest, hoptions, hfront⟩ := List.find?_eq_some_iff_append.1 hfind
        have hnot : ¬ option.IsGiven pieces := by simpa using hoption
        simp only [Declaration.IsGiven, Classical.not_imp] at hnot
        have hearlier : ∀ other ∈ front, other.IsGiven pieces := fun other hother => by
          simpa using hfront other hother
        exact .inr ⟨_, .option hreads henough hoptions hearlier hnot.1 hnot.2.1 hnot.2.2⟩
    · exact .inr ⟨_, .argument hreads (List.getElem?_eq_getElem (by omega))⟩
  · exact .inr ⟨reason, .token hmisfit⟩

/-! ## Bound options -/

/-- What the allocation gives to the arguments when there are enough tokens. -/
def assignment (registry : Registry) (tokens : List Text) : List (Text × Text) :=
  (registry.slots tokens.length).zip tokens

theorem bound?_isSome_iff (h : registry.WellFormed) (hreads : registry.Reads tokens pieces)
    {option : Declaration} (hoption : option ∈ registry.options)
    (hkind : option.isArgument = false) (assigned : List (Text × Text)) :
    (option.bound? (occurrences pieces) assigned).isSome = true ↔ option.OccursIn pieces := by
  rw [Declaration.bound?_of_not_isArgument hkind, Option.isSome_iff_ne_none, ne_eq,
    Binding.ofReadings_eq_none_iff, hreads.readingsOf_eq_nil_iff h.distinct hoption, not_not]

theorem exists_bound?_argument (h : registry.WellFormed) (occurrences : List Occurrence)
    (henough : registry.mandatoryArguments.length ≤ tokens.length) {option : Declaration}
    (hkind : option.isArgument = true) (hslot : option.name ∈ registry.slots tokens.length) :
    ∃ token ∈ tokens,
      option.bound? occurrences (registry.assignment tokens) = some (.positional token) := by
  obtain ⟨token, htoken, hlookup⟩ := exists_lookup_zip (nodup_slots h _)
    (length_slots_le h (mandatoryCount_eq ▸ henough)) hslot
  refine ⟨token, htoken, ?_⟩
  rw [Declaration.bound?_of_isArgument hkind, assignment, hlookup]
  rfl

theorem mem_mandatoryArguments {option : Declaration} (hoption : option ∈ registry.options)
    (hkind : option.isArgument = true) (hmandatory : option.isOptional = false) :
    option ∈ registry.mandatoryArguments := by
  simp [mandatoryArguments, arguments, hoption, hkind, hmandatory]

/-- With enough tokens, a mandatory option is left without a binding only if it is no argument and
    does not occur. -/
theorem bound?_isSome_of_isGiven (h : registry.WellFormed) (hreads : registry.Reads tokens pieces)
    (henough : registry.mandatoryArguments.length ≤ (positionals pieces).length)
    {option : Declaration} (hoption : option ∈ registry.options) (hgiven : option.IsGiven pieces)
    (hmandatory : option.isOptional = false) :
    (option.bound? (occurrences pieces) (registry.assignment (positionals pieces))).isSome =
      true := by
  cases hkind : option.isArgument with
  | true =>
    obtain ⟨token, -, hbound⟩ := exists_bound?_argument h (occurrences pieces) henough hkind
      (mem_slots_of_mandatory (mem_mandatoryArguments hoption hkind hmandatory))
    rw [hbound]
    rfl
  | false => exact (bound?_isSome_iff h hreads hoption hkind _).2 (hgiven hkind hmandatory)

/-! ## Verdicts -/

theorem fit_of_enough (h : registry.WellFormed) (hreads : registry.Reads tokens pieces)
    (henough : registry.mandatoryArguments.length ≤ (positionals pieces).length) :
    registry.fit tokens =
      (Declaration.bindAll (occurrences pieces) (registry.assignment (positionals pieces))
        registry.options).map fun bindings => ⟨bindings,
          (positionals pieces).drop (registry.slots (positionals pieces).length).length⟩ := by
  rw [fit_of_reads h hreads, fitPieces, allocate_of_le h henough]
  rfl

/-- What an option is bound to by a command line that fits. -/
def settle (registry : Registry) (pieces : List Piece) (option : Declaration) : Option Binding :=
  option.settled? (occurrences pieces) (registry.assignment (positionals pieces))

/-- The match of a command line that fits. -/
def matchOf (registry : Registry) (pieces : List Piece) : Match where
  bindings := Declaration.bindings (registry.settle pieces) registry.options
  remaining := (positionals pieces).drop (registry.slots (positionals pieces).length).length

theorem fit_of_fits (h : registry.WellFormed) (hreads : registry.Reads tokens pieces)
    (henough : registry.mandatoryArguments.length ≤ (positionals pieces).length)
    (hgiven : ∀ option ∈ registry.options, option.IsGiven pieces) :
    registry.fit tokens = .ok (registry.matchOf pieces) := by
  rw [fit_of_enough h hreads henough, Declaration.bindAll_of_bound fun option hoption =>
    bound?_isSome_of_isGiven h hreads henough hoption (hgiven option hoption), map_ok]
  rfl

theorem fit_of_fails (h : registry.WellFormed) {reason : Misfit}
    (hfails : registry.Fails tokens reason) : registry.fit tokens = .error reason := by
  cases hfails with
  | token hmisfit => exact fit_of_firstMisfit h hmisfit
  | argument hreads hargument =>
    rw [fit_of_reads h hreads, fitPieces, allocate_of_lt h hargument]
  | @option pieces front rest option hreads henough hoptions hfront hkind hmandatory hmissing =>
    have hbound : option.bound? (occurrences pieces) (registry.assignment (positionals pieces)) =
        none := by
      rw [← Option.not_isSome_iff_eq_none, bound?_isSome_iff h hreads (by simp [hoptions]) hkind]
      exact hmissing
    have hearlier : ∀ other ∈ front, other.isOptional = false →
        (other.bound? (occurrences pieces) (registry.assignment (positionals pieces))).isSome =
          true := fun other hother =>
      bound?_isSome_of_isGiven h hreads henough (by simp [hoptions, hother]) (hfront other hother)
    rw [fit_of_enough h hreads henough, hoptions,
      Declaration.bindAll_of_missing hearlier hmandatory hbound, map_error]

theorem fits_of_fit (h : registry.WellFormed) {found : Match}
    (hfit : registry.fit tokens = .ok found) : registry.Fits tokens := by
  rcases fits_or_fails registry tokens with hfits | ⟨reason, hfails⟩
  · exact hfits
  · rw [fit_of_fails h hfails] at hfit
    cases hfit

/-- A command line that matches has one reading, and its match is the one of this reading. -/
theorem exists_matchOf_of_fit (h : registry.WellFormed) {found : Match}
    (hfit : registry.fit tokens = .ok found) :
    ∃ pieces, registry.Reads tokens pieces ∧
      (∀ others, registry.Reads tokens others → others = pieces) ∧
      registry.mandatoryArguments.length ≤ (positionals pieces).length ∧
      registry.matchOf pieces = found := by
  obtain ⟨pieces, hreads, henough, hgiven⟩ := fits_of_fit h hfit
  have hfound := (fit_of_fits h hreads henough hgiven).symm.trans hfit
  exact ⟨pieces, hreads, fun others hothers => hreads.unique h hothers, henough,
    Except.ok.inj hfound⟩

/-- A command line does not match for exactly the reason for which it fails, and it matches just if
    it fits. -/
theorem fit_eq_error_iff {definition : Text} (hread : Registry.read definition = .ok registry)
    (tokens : List Text) :
    (∀ reason, registry.fit tokens = .error reason ↔ registry.Fails tokens reason) ∧
      ((∃ found, registry.fit tokens = .ok found) ↔ registry.Fits tokens) := by
  have h := wellFormed_of_read hread
  refine ⟨fun reason => ⟨fun herror => ?_, fit_of_fails h⟩, fun hok => ?_, fun hfits => ?_⟩
  · rcases fits_or_fails registry tokens with hfits | ⟨other, hfails⟩
    · obtain ⟨pieces, hreads, henough, hgiven⟩ := hfits
      rw [fit_of_fits h hreads henough hgiven] at herror
      cases herror
    · rw [fit_of_fails h hfails] at herror
      cases herror
      exact hfails
  · obtain ⟨found, hfound⟩ := hok
    exact fits_of_fit h hfound
  · obtain ⟨pieces, hreads, henough, hgiven⟩ := hfits
    exact ⟨_, fit_of_fits h hreads henough hgiven⟩

/-- A mandatory argument is missing before any other mandatory option is. -/
theorem fails_of_one_token : ∃ registry,
    Registry.read ['-', 'f', ' ', 'a', ' ', 'b'] = .ok registry ∧
      registry.Fails [['x']] (.argumentMissing ['b']) := by
  have h : Registry.read ['-', 'f', ' ', 'a', ' ', 'b'] =
    .ok ⟨[⟨⟨.short, ['f']⟩, [], false, none⟩, ⟨⟨.argument, ['a']⟩, [], false, none⟩,
      ⟨⟨.argument, ['b']⟩, [], false, none⟩], none⟩ := rfl
  exact ⟨_, h, ((fit_eq_error_iff h [['x']]).1 _).1 rfl⟩

end Registry

end CommandLine

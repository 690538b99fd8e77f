import CommandLine.Proofs.Matching.Failure

/-!
# What a match holds

A match binds the options of its registry under all their names, and nothing else. Only an optional
argument that received no token stays out. An argument is bound to its token; any other option is
bound to what its last occurrence makes of it, or to its default.

Results:
* `Registry.settle_of_occursIn`, `Registry.settle_of_not_occursIn`: what an option is bound to.
* `Registry.accounts_of_fit`: what every match holds.
-/

namespace CommandLine

theorem Binding.exists_after_counted (previous : Option Binding) :
    ∃ count, 1 ≤ count ∧ Binding.after previous .counted = .count count := by
  match previous with
  | some (.count occurrences) => exact ⟨occurrences + 1, by omega, rfl⟩
  | none | some (.flag _) | some (.value _) | some (.positional _) => exact ⟨1, le_rfl, rfl⟩

namespace Registry

variable {registry : Registry} {tokens : List Text} {pieces : List Piece} {option : Declaration}

/-! ## Settling -/

/-- An option that occurs is bound to what its last occurrence makes of the ones before. -/
theorem settle_of_occursIn (h : registry.WellFormed) (hreads : registry.Reads tokens pieces)
    (hoption : option ∈ registry.options) (hkind : option.isArgument = false)
    (hoccurs : option.OccursIn pieces) :
    ∃ piece ∈ pieces, ∃ previous reading, option.Hears piece reading ∧
      registry.settle pieces option = some (Binding.after previous reading) := by
  have hne : readingsOf option.name (occurrences pieces) ≠ [] := fun hnil =>
    (hreads.readingsOf_eq_nil_iff h.distinct hoption).1 hnil hoccurs
  obtain ⟨front, last, hreadings⟩ := (List.eq_nil_or_concat' _).resolve_left hne
  have hlast : last ∈ readingsOf option.name (occurrences pieces) := by simp [hreadings]
  obtain ⟨piece, hpiece, hhears⟩ := hreads.hears h.distinct hoption hlast
  refine ⟨piece, hpiece, Binding.ofReadings front, last, hhears, ?_⟩
  rw [settle, Declaration.settled?, Declaration.bound?_of_not_isArgument hkind, hreadings,
    Binding.ofReadings_append_singleton, Option.some_or]

/-- An option that does not occur is bound to its default. -/
theorem settle_of_not_occursIn (h : registry.WellFormed) (hreads : registry.Reads tokens pieces)
    (hoption : option ∈ registry.options) (hkind : option.isArgument = false)
    (hoccurs : ¬ option.OccursIn pieces) :
    registry.settle pieces option = option.default? := by
  have hbound := (bound?_isSome_iff h hreads hoption hkind
    (registry.assignment (positionals pieces))).not.2 hoccurs
  rw [settle, Declaration.settled?, Option.not_isSome_iff_eq_none.1 hbound, Option.none_or]

/-- An argument is bound to the token that it is assigned, if any. -/
theorem settle_of_isArgument (h : registry.WellFormed) (hoption : option ∈ registry.options)
    (hkind : option.isArgument = true) :
    registry.settle pieces option =
      ((registry.assignment (positionals pieces)).lookup option.name).map .positional := by
  have hvalue := (h.options option hoption).takesValue_eq_false hkind
  have hargument : option.primary.kind = .argument := by
    simpa [Declaration.isArgument] using hkind
  have hdefault : option.default? = none := by simp [Declaration.default?, hvalue, hargument]
  rw [settle, Declaration.settled?, Declaration.bound?_of_isArgument hkind, hdefault,
    Option.or_none]

/-- An argument is bound to the token in its place. -/
theorem settle_of_slot (h : registry.WellFormed) (hoption : option ∈ registry.options)
    (henough : registry.mandatoryArguments.length ≤ (positionals pieces).length)
    (hkind : option.isArgument = true) {place : Nat}
    (hplace : (registry.slots (positionals pieces).length)[place]? = some option.name) :
    ∃ token, (positionals pieces)[place]? = some token ∧
      registry.settle pieces option = some (.positional token) := by
  have hle := length_slots_le h (mandatoryCount_eq ▸ henough)
  obtain ⟨hlt, -⟩ := List.getElem?_eq_some_iff.1 hplace
  have htoken := List.getElem?_eq_getElem (hlt.trans_le hle)
  refine ⟨_, htoken, ?_⟩
  rw [settle_of_isArgument h hoption hkind, assignment,
    lookup_zip_of_getElem? (nodup_slots h _) hplace, htoken]
  rfl

/-- An argument without a token stays out. -/
theorem settle_of_not_slot (h : registry.WellFormed) (hoption : option ∈ registry.options)
    (hkind : option.isArgument = true)
    (hslot : option.name ∉ registry.slots (positionals pieces).length) :
    registry.settle pieces option = none := by
  rw [settle_of_isArgument h hoption hkind, assignment, lookup_zip_of_notMem hslot]
  rfl

theorem default?_isSome_of_not_isArgument (hkind : option.isArgument = false) :
    option.default?.isSome = true := by
  unfold Declaration.default?
  split
  · rfl
  · cases hprimary : option.primary.kind with
    | long => rfl
    | short => rfl
    | argument => simp [Declaration.isArgument, hprimary] at hkind

/-- All options are bound but the optional arguments that received no token. -/
theorem settle_isSome_iff (h : registry.WellFormed)
    (henough : registry.mandatoryArguments.length ≤ (positionals pieces).length)
    (hoption : option ∈ registry.options) :
    (registry.settle pieces option).isSome = true ↔
      (option.isArgument = true → option.isOptional = true →
        option.name ∈ registry.slots (positionals pieces).length) := by
  cases hkind : option.isArgument with
  | false =>
    simp [settle, Declaration.settled?, default?_isSome_of_not_isArgument hkind]
  | true =>
    by_cases hslot : option.name ∈ registry.slots (positionals pieces).length
    · obtain ⟨place, hplace⟩ := List.mem_iff_getElem?.1 hslot
      obtain ⟨token, -, hsettle⟩ := settle_of_slot h hoption henough hkind hplace
      simp [hsettle, hslot]
    · have hoptional : option.isOptional = true := by
        by_contra hmandatory
        exact hslot (mem_slots_of_mandatory
          (mem_mandatoryArguments hoption hkind (by simpa using hmandatory)))
      simp [settle_of_not_slot h hoption hkind hslot, hslot, hoptional]

/-! ## Matches -/

/-- What a match holds of a command line that was read into these pieces. -/
structure Accounts (registry : Registry) (tokens : List Text) (pieces : List Piece)
    (found : Match) : Prop where
  /-- All names are bound but those of optional arguments that received no token. -/
  keys : ∀ name, found.contains name = true ↔
    ∃ option ∈ registry.options, name ∈ option.names ∧
      (option.isArgument = true → option.isOptional = true →
        option.name ∈ registry.slots (positionals pieces).length)
  distinct : (found.bindings.map Prod.fst).Nodup
  aliases : ∀ option ∈ registry.options, ∀ other ∈ option.aliases,
    found.get? other.form.name = found.get? option.name
  /-- The arguments that received a token are bound to the one in their place. -/
  received : ∀ (place : Nat) (name : Text),
    (registry.slots (positionals pieces).length)[place]? = some name →
      ∃ token, (positionals pieces)[place]? = some token ∧
        found.get? name = some (.positional token)
  arguments : ∀ option ∈ registry.options, option.isArgument = true →
    ∀ binding, found.get? option.name = some binding →
      ∃ token ∈ positionals pieces, binding = .positional token
  /-- A switch that occurs is on or counted, as its forms allow. -/
  switches : ∀ option ∈ registry.options, option.isArgument = false →
    option.takesValue = false → option.OccursIn pieces →
      found.get? option.name = some (.flag true) ∧ (∃ form ∈ option.forms, form.kind = .long) ∨
        ∃ count, 1 ≤ count ∧ found.get? option.name = some (.count count) ∧
          ∃ form ∈ option.forms, form.kind = .short
  /-- A switch that does not occur is bound to the default of its primary form. -/
  absent : ∀ option ∈ registry.options, option.takesValue = false → ¬ option.OccursIn pieces →
    (option.primary.kind = .long → found.get? option.name = some (.flag false)) ∧
      (option.primary.kind = .short → found.get? option.name = some (.count 0))
  /-- An option with a value that occurs has one, or else it is counted in a token with several
      letters. -/
  values : ∀ option ∈ registry.options, option.takesValue = true → option.OccursIn pieces →
    (∃ text ∈ tokens, found.get? option.name = some (.value (some text))) ∨
      ∃ count, 1 ≤ count ∧ found.get? option.name = some (.count count) ∧
        ∃ piece ∈ pieces, 1 < piece.mentioned.length ∧
          ∃ form ∈ piece.mentioned, form ∈ option.forms ∧ form.kind = .short
  /-- The value is absent just if the option does not occur. -/
  absentValue : ∀ option ∈ registry.options, option.takesValue = true →
    (found.get? option.name = some (.value none) ↔ ¬ option.OccursIn pieces)

theorem exists_of_mem_slots {supply : Nat} {name : Text} (h : name ∈ registry.slots supply) :
    ∃ option ∈ registry.options, option.isArgument = true ∧ option.name = name := by
  rw [slots_eq] at h
  obtain ⟨option, hmem, rfl⟩ := List.mem_map.1 h
  obtain ⟨hoption, hkind⟩ := List.mem_filter.1 (List.mem_filter.1 hmem).1
  exact ⟨option, hoption, hkind, rfl⟩

/-- What a switch is bound to, in accordance with its forms. -/
theorem settle_switch (h : registry.WellFormed) (hreads : registry.Reads tokens pieces)
    (hoption : option ∈ registry.options) (hkind : option.isArgument = false)
    (hvalue : option.takesValue = false) (hoccurs : option.OccursIn pieces) :
    registry.settle pieces option = some (.flag true) ∧
        (∃ form ∈ option.forms, form.kind = .long) ∨
      ∃ count, 1 ≤ count ∧ registry.settle pieces option = some (.count count) ∧
        ∃ form ∈ option.forms, form.kind = .short := by
  obtain ⟨piece, -, previous, reading, hhears, hsettle⟩ :=
    settle_of_occursIn h hreads hoption hkind hoccurs
  cases hhears with
  | switched _ hform hlong _ => exact .inl ⟨hsettle, _, hform, hlong⟩
  | given _ htakes =>
    rw [hvalue] at htakes
    cases htakes
  | counted _ hform hshort _ =>
    obtain ⟨count, hcount, hafter⟩ := Binding.exists_after_counted previous
    exact .inr ⟨count, hcount, hafter ▸ hsettle, _, hform, hshort⟩

/-- What an option with a value is bound to. -/
theorem settle_value (h : registry.WellFormed) (hreads : registry.Reads tokens pieces)
    (hoption : option ∈ registry.options) (hvalue : option.takesValue = true)
    (hoccurs : option.OccursIn pieces) :
    (∃ text ∈ tokens, registry.settle pieces option = some (.value (some text))) ∨
      ∃ count, 1 ≤ count ∧ registry.settle pieces option = some (.count count) ∧
        ∃ piece ∈ pieces, 1 < piece.mentioned.length ∧
          ∃ form ∈ piece.mentioned, form ∈ option.forms ∧ form.kind = .short := by
  obtain ⟨piece, hpiece, previous, reading, hhears, hsettle⟩ :=
    settle_of_occursIn h hreads hoption (h.isArgument_eq_false hoption hvalue) hoccurs
  cases hhears with
  | switched _ _ _ hnone =>
    rw [hvalue] at hnone
    cases hnone
  | given htext _ => exact .inl ⟨_, hreads.mem_tokens hpiece htext, hsettle⟩
  | counted hmentioned hform hshort hcombined =>
    obtain ⟨count, hcount, hafter⟩ := Binding.exists_after_counted previous
    exact .inr ⟨count, hcount, hafter ▸ hsettle, piece, hpiece, hcombined hvalue, _, hmentioned,
      hform, hshort⟩

/-- A name is bound to what its option is settled on. -/
theorem get?_matchOf (h : registry.WellFormed) (pieces : List Piece)
    (hoption : option ∈ registry.options) {name : Text} (hname : name ∈ option.names) :
    (registry.matchOf pieces).get? name = registry.settle pieces option :=
  Declaration.lookup_bindings h.distinct hoption hname

theorem get?_name_matchOf (h : registry.WellFormed) (pieces : List Piece)
    (hoption : option ∈ registry.options) :
    (registry.matchOf pieces).get? option.name = registry.settle pieces option :=
  get?_matchOf h pieces hoption option.name_mem_names

theorem nodup_keys_matchOf (h : registry.WellFormed) (pieces : List Piece) :
    ((registry.matchOf pieces).bindings.map Prod.fst).Nodup :=
  (Declaration.map_fst_bindings_sublist _ _).nodup h.distinct

/-- The names that are bound are those of the options that are settled. -/
theorem contains_matchOf_iff (h : registry.WellFormed) (pieces : List Piece) (name : Text) :
    (registry.matchOf pieces).contains name = true ↔
      ∃ option ∈ registry.options, name ∈ option.names ∧
        (registry.settle pieces option).isSome = true := by
  constructor
  · intro hcontains
    by_cases hname : name ∈ registry.names
    · obtain ⟨option, hoption, hmem⟩ := List.mem_flatMap.1 hname
      rw [Match.contains, get?_matchOf h pieces hoption hmem] at hcontains
      exact ⟨option, hoption, hmem, hcontains⟩
    · have hnone : (registry.matchOf pieces).get? name = none :=
        Declaration.lookup_eq_none_of_notMem fun hmem =>
          hname ((Declaration.map_fst_bindings_sublist _ _).mem hmem)
      rw [Match.contains, hnone] at hcontains
      cases hcontains
  · rintro ⟨option, hoption, hmem, hsettle⟩
    rw [Match.contains, get?_matchOf h pieces hoption hmem]
    exact hsettle

theorem settle_absent (h : registry.WellFormed) (hreads : registry.Reads tokens pieces)
    (hoption : option ∈ registry.options) (hvalue : option.takesValue = false)
    (hoccurs : ¬ option.OccursIn pieces) :
    (option.primary.kind = .long → registry.settle pieces option = some (.flag false)) ∧
      (option.primary.kind = .short → registry.settle pieces option = some (.count 0)) := by
  have hsettle : option.isArgument = false → registry.settle pieces option = option.default? :=
    fun hkind => settle_of_not_occursIn h hreads hoption hkind hoccurs
  constructor
  · intro hlong
    rw [hsettle (by simp [Declaration.isArgument, hlong])]
    simp [Declaration.default?, hvalue, hlong]
  · intro hshort
    rw [hsettle (by simp [Declaration.isArgument, hshort])]
    simp [Declaration.default?, hvalue, hshort]

theorem settle_eq_value_none_iff (h : registry.WellFormed) (hreads : registry.Reads tokens pieces)
    (hoption : option ∈ registry.options) (hvalue : option.takesValue = true) :
    registry.settle pieces option = some (.value none) ↔ ¬ option.OccursIn pieces := by
  have hkind := h.isArgument_eq_false hoption hvalue
  constructor
  · intro hsettle hoccurs
    rcases settle_value h hreads hoption hvalue hoccurs with
      ⟨text, -, hgiven⟩ | ⟨count, -, hcounted, -⟩
    · rw [hsettle] at hgiven
      cases hgiven
    · rw [hsettle] at hcounted
      cases hcounted
  · intro hoccurs
    rw [settle_of_not_occursIn h hreads hoption hkind hoccurs]
    simp [Declaration.default?, hvalue]

theorem accounts_matchOf (h : registry.WellFormed) (hreads : registry.Reads tokens pieces)
    (henough : registry.mandatoryArguments.length ≤ (positionals pieces).length) :
    registry.Accounts tokens pieces (registry.matchOf pieces) where
  keys name := by
    rw [contains_matchOf_iff h]
    refine exists_congr fun option => and_congr_right fun hoption => and_congr_right fun _ => ?_
    exact settle_isSome_iff h henough hoption
  distinct := nodup_keys_matchOf h pieces
  aliases option hoption other hother := by
    have hname : other.form.name ∈ option.names :=
      List.mem_map_of_mem (List.mem_cons_of_mem _ (List.mem_map_of_mem hother))
    rw [get?_matchOf h pieces hoption hname, get?_name_matchOf h pieces hoption]
  received place name hplace := by
    obtain ⟨option, hoption, hkind, rfl⟩ := exists_of_mem_slots (List.mem_of_getElem? hplace)
    rw [get?_name_matchOf h pieces hoption]
    exact settle_of_slot h hoption henough hkind hplace
  arguments option hoption hkind binding hbinding := by
    rw [get?_name_matchOf h pieces hoption] at hbinding
    by_cases hslot : option.name ∈ registry.slots (positionals pieces).length
    · obtain ⟨place, hplace⟩ := List.mem_iff_getElem?.1 hslot
      obtain ⟨token, htoken, hsettle⟩ := settle_of_slot h hoption henough hkind hplace
      exact ⟨token, List.mem_of_getElem? htoken, Option.some.inj (hbinding.symm.trans hsettle)⟩
    · rw [settle_of_not_slot h hoption hkind hslot] at hbinding
      cases hbinding
  switches option hoption hkind hvalue hoccurs := by
    rw [get?_name_matchOf h pieces hoption]
    exact settle_switch h hreads hoption hkind hvalue hoccurs
  absent option hoption hvalue hoccurs := by
    rw [get?_name_matchOf h pieces hoption]
    exact settle_absent h hreads hoption hvalue hoccurs
  values option hoption hvalue hoccurs := by
    rw [get?_name_matchOf h pieces hoption]
    exact settle_value h hreads hoption hvalue hoccurs
  absentValue option hoption hvalue := by
    rw [get?_name_matchOf h pieces hoption]
    exact settle_eq_value_none_iff h hreads hoption hvalue

/-- A match holds the bindings of all options, and each of them is one that its option allows. -/
theorem accounts_of_fit {definition : Text} (hread : Registry.read definition = .ok registry)
    {found : Match} (hfit : registry.fit tokens = .ok found) :
    ∃ pieces, registry.Reads tokens pieces ∧ registry.Accounts tokens pieces found := by
  have h := wellFormed_of_read hread
  obtain ⟨pieces, hreads, henough, hgiven⟩ := fits_of_fit h hfit
  obtain rfl : registry.matchOf pieces = found :=
    Except.ok.inj ((fit_of_fits h hreads henough hgiven).symm.trans hfit)
  exact ⟨pieces, hreads, accounts_matchOf h hreads henough⟩

/-- Here an option with a value is counted, and an optional argument stays out. -/
theorem accounts_of_counted_value : ∃ registry,
    Registry.read ['-', 'v', ' ', '-', 'n', '=', '|', '-', '-', 'n', 'o', '=', ' ', '[', 'a', ']'] =
        .ok registry ∧
      registry.fit [['-', 'v', 'n']] =
        .ok ⟨[(['v'], .count 1), (['n'], .count 1), (['n', 'o'], .count 1)], []⟩ ∧
      ∃ pieces, registry.Reads [['-', 'v', 'n']] pieces ∧
        registry.Accounts [['-', 'v', 'n']] pieces
          ⟨[(['v'], .count 1), (['n'], .count 1), (['n', 'o'], .count 1)], []⟩ := by
  have h : Registry.read
      ['-', 'v', ' ', '-', 'n', '=', '|', '-', '-', 'n', 'o', '=', ' ', '[', 'a', ']'] =
    .ok ⟨[⟨⟨.short, ['v']⟩, [], false, none⟩,
      ⟨⟨.short, ['n']⟩, [⟨⟨.long, ['n', 'o']⟩, true, none⟩], true, none⟩,
      ⟨⟨.argument, ['a']⟩, [], false, some 1⟩], none⟩ := rfl
  exact ⟨_, h, rfl, accounts_of_fit h rfl⟩

end Registry

end CommandLine

import CommandLine.Proofs.Matching.Match

/-!
# Where the positional tokens go

The positional tokens of a command line that matches are neither lost nor doubled nor put in another
order: the arguments that are bound hold the first ones, in the order of declaration, and the others
remain. Whether an argument is bound depends on its group only, so all arguments of a group are
bound or none is.

Results:
* `Registry.contains_argument`: an argument is bound just if it is mandatory or its group is served.
* `Registry.filterMap_get?_arguments`: the bound arguments hold the first positional tokens.
* `Registry.sharesOut_of_fit`: what a match makes of the positional tokens.
-/

namespace CommandLine.Registry

variable {registry : Registry} {tokens : List Text} {pieces : List Piece}

/-! ## Handing out in order -/

/-- When the names that pass are paired with tokens, looking up all names in order finds the tokens
    in order. -/
theorem filterMap_lookup_zip {arguments : List Declaration}
    (hnames : (arguments.map Declaration.name).Nodup) (passes : Declaration → Bool)
    {tokens : List Text} (hle : (arguments.filter passes).length ≤ tokens.length) :
    arguments.filterMap (fun argument =>
        (((arguments.filter passes).map Declaration.name).zip tokens).lookup argument.name) =
      tokens.take (arguments.filter passes).length := by
  induction arguments generalizing tokens with
  | nil => rfl
  | cons argument arguments ih =>
    rw [List.map_cons, List.nodup_cons] at hnames
    obtain ⟨hfresh, hnames⟩ := hnames
    cases hpasses : passes argument with
    | true =>
      rw [List.filter_cons_of_pos hpasses, List.length_cons] at hle ⊢
      obtain ⟨token, tokens, rfl⟩ : ∃ token rest, tokens = token :: rest :=
        List.exists_cons_of_length_pos (by omega)
      have hlater : ∀ other ∈ arguments,
          ((argument.name, token) ::
            ((arguments.filter passes).map Declaration.name).zip tokens).lookup other.name =
          (((arguments.filter passes).map Declaration.name).zip tokens).lookup other.name := by
        intro other hother
        have hne : other.name ≠ argument.name := by
          intro heq
          exact hfresh (heq ▸ List.mem_map_of_mem hother)
        rw [List.lookup_cons, beq_eq_false_iff_ne.2 hne]
      rw [List.map_cons, List.zip_cons_cons, List.take_succ_cons, List.filterMap_cons,
        List.lookup_cons_self, List.filterMap_congr hlater,
        ih hnames (Nat.le_of_succ_le_succ hle)]
    | false =>
      rw [List.filter_cons_of_neg (by simp [hpasses])] at hle ⊢
      have hnone : (((arguments.filter passes).map Declaration.name).zip tokens).lookup
          argument.name = none :=
        lookup_zip_of_notMem fun hmem => hfresh ((List.filter_sublist.map _).mem hmem)
      rw [List.filterMap_cons, hnone]
      exact ih hnames hle

/-! ## Bound arguments -/

theorem nodup_map_name_arguments (h : registry.WellFormed) :
    (registry.arguments.map Declaration.name).Nodup :=
  (List.filter_sublist.map _).nodup h.nodup_map_name

/-- The groups that are served when a command line matches, by their numbers. -/
def served (registry : Registry) (pieces : List Piece) : List Nat :=
  (registry.chosen (positionals pieces).length).map ArgumentGroup.number

theorem mem_slots_iff (h : registry.WellFormed) {argument : Declaration}
    (hargument : argument ∈ registry.arguments) :
    argument.name ∈ registry.slots (positionals pieces).length ↔
      receives (registry.served pieces) argument = true := by
  rw [slots_eq]
  constructor
  · intro hmem
    obtain ⟨other, hother, heq⟩ := List.mem_map.1 hmem
    obtain ⟨hother, hreceives⟩ := List.mem_filter.1 hother
    have hsame : other = argument :=
      List.inj_on_of_nodup_map (nodup_map_name_arguments h) hother hargument heq
    exact hsame ▸ hreceives
  · intro hreceives
    exact List.mem_map_of_mem (List.mem_filter.2 ⟨hargument, hreceives⟩)

/-- An argument is bound just if it is mandatory or its group is served. -/
theorem contains_argument (h : registry.WellFormed)
    (henough : registry.mandatoryArguments.length ≤ (positionals pieces).length)
    {argument : Declaration} (hargument : argument ∈ registry.arguments) :
    (registry.matchOf pieces).contains argument.name =
      receives (registry.served pieces) argument := by
  obtain ⟨hoption, hkind⟩ := List.mem_filter.1 hargument
  have hslot : (registry.settle pieces argument).isSome = true ↔
      argument.name ∈ registry.slots (positionals pieces).length := by
    rw [settle_isSome_iff h henough hoption]
    constructor
    · intro himp
      cases hoptional : argument.isOptional with
      | true => exact himp hkind hoptional
      | false =>
        exact mem_slots_of_mandatory (mem_mandatoryArguments hoption hkind hoptional)
    · intro hmem _ _
      exact hmem
  rw [Match.contains, get?_name_matchOf h pieces hoption, Bool.eq_iff_iff, hslot,
    mem_slots_iff h hargument]

/-- The bound arguments hold the first positional tokens, in order. -/
theorem filterMap_get?_arguments (h : registry.WellFormed)
    (henough : registry.mandatoryArguments.length ≤ (positionals pieces).length) :
    registry.arguments.filterMap (fun argument =>
        (registry.matchOf pieces).get? argument.name) =
      ((positionals pieces).take (registry.slots (positionals pieces).length).length).map
        .positional := by
  have hget : ∀ argument ∈ registry.arguments,
      (registry.matchOf pieces).get? argument.name =
        ((registry.assignment (positionals pieces)).lookup argument.name).map .positional := by
    intro argument hargument
    obtain ⟨hoption, hkind⟩ := List.mem_filter.1 hargument
    rw [get?_name_matchOf h pieces hoption, settle_of_isArgument h hoption hkind]
  have hle := length_slots_le h (mandatoryCount_eq ▸ henough)
  rw [List.filterMap_congr hget, ← List.map_filterMap, assignment]
  rw [slots_eq, List.length_map] at hle ⊢
  rw [filterMap_lookup_zip (nodup_map_name_arguments h) _ hle]

/-! ## Matches -/

/-- What a match makes of the positional tokens of a command line. -/
structure SharesOut (registry : Registry) (pieces : List Piece) (found : Match) : Prop where
  /-- The bound arguments, in the order of declaration, and then the rest hold all tokens. -/
  inOrder : (registry.arguments.filterMap fun argument => found.get? argument.name) ++
      found.remaining.map .positional = (positionals pieces).map .positional
  mandatory : ∀ argument ∈ registry.arguments, argument.isOptional = false →
    found.contains argument.name = true
  /-- All arguments of a group are bound, or none is. -/
  together : ∀ number,
    (∀ argument ∈ registry.arguments, argument.group = some number →
      found.contains argument.name = true) ∨
    (∀ argument ∈ registry.arguments, argument.group = some number →
      found.contains argument.name = false)

theorem sharesOut_matchOf (h : registry.WellFormed)
    (henough : registry.mandatoryArguments.length ≤ (positionals pieces).length) :
    registry.SharesOut pieces (registry.matchOf pieces) where
  inOrder := by
    rw [filterMap_get?_arguments h henough, matchOf, ← List.map_append, List.take_append_drop]
  mandatory argument hargument hmandatory := by
    have hgroup : argument.group = none := by
      simpa [Declaration.isOptional] using hmandatory
    rw [contains_argument h henough hargument, receives, hgroup]
  together number := by
    have hcontains : ∀ argument ∈ registry.arguments, argument.group = some number →
        (registry.matchOf pieces).contains argument.name =
          (registry.served pieces).contains number := by
      intro argument hargument hgroup
      rw [contains_argument h henough hargument, receives, hgroup]
    cases hserved : (registry.served pieces).contains number with
    | true =>
      exact .inl fun argument hargument hgroup =>
        (hcontains argument hargument hgroup).trans hserved
    | false =>
      exact .inr fun argument hargument hgroup =>
        (hcontains argument hargument hgroup).trans hserved

/-- A match loses, doubles and moves no positional token, and it fills groups as a whole. -/
theorem sharesOut_of_fit {definition : Text} (hread : Registry.read definition = .ok registry)
    {found : Match} (hfit : registry.fit tokens = .ok found) :
    ∃ pieces, registry.Reads tokens pieces ∧
      (∀ others, registry.Reads tokens others → others = pieces) ∧
      registry.SharesOut pieces found := by
  have h := wellFormed_of_read hread
  obtain ⟨pieces, hreads, hunique, henough, rfl⟩ := exists_matchOf_of_fit h hfit
  exact ⟨pieces, hreads, hunique, sharesOut_matchOf h henough⟩

/-- Here a switch stands between the arguments of a group, one group is not served, and a token
    remains. -/
theorem sharesOut_of_divided_group : ∃ registry,
    Registry.read ['[', 'a', ' ', '-', '-', 'x', ' ', 'b', ']', ' ', 'c', ' ',
        '[', 'd', ' ', 'e', ']'] = .ok registry ∧
      registry.fit [['1'], ['2'], ['3'], ['4']] =
        .ok ⟨[(['a'], .positional ['1']), (['x'], .flag false), (['b'], .positional ['2']),
          (['c'], .positional ['3'])], [['4']]⟩ ∧
      ∃ pieces, registry.Reads [['1'], ['2'], ['3'], ['4']] pieces ∧
        (∀ others, registry.Reads [['1'], ['2'], ['3'], ['4']] others → others = pieces) ∧
        registry.SharesOut pieces
          ⟨[(['a'], .positional ['1']), (['x'], .flag false), (['b'], .positional ['2']),
            (['c'], .positional ['3'])], [['4']]⟩ := by
  have h : Registry.read ['[', 'a', ' ', '-', '-', 'x', ' ', 'b', ']', ' ', 'c', ' ',
      '[', 'd', ' ', 'e', ']'] =
    .ok ⟨[⟨⟨.argument, ['a']⟩, [], false, some 1⟩, ⟨⟨.long, ['x']⟩, [], false, some 1⟩,
      ⟨⟨.argument, ['b']⟩, [], false, some 1⟩, ⟨⟨.argument, ['c']⟩, [], false, none⟩,
      ⟨⟨.argument, ['d']⟩, [], false, some 2⟩, ⟨⟨.argument, ['e']⟩, [], false, some 2⟩],
      none⟩ := rfl
  exact ⟨_, h, rfl, sharesOut_of_fit h rfl⟩

end CommandLine.Registry

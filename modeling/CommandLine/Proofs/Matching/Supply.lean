import CommandLine.Proofs.Matching.Conservation

/-!
# One more positional token

With one more positional token a larger group may be served, and groups behind it that were served
before may be dropped. The new choice of groups follows the old one until some group fits just by
the new token. That group uses up all tokens, so nothing remains; without such a group the choice is
the same, and the new token remains. In both cases no fewer arguments are bound than before.

Results:
* `chooseGroups_succ`: one more token to spare is left over, or no token is.
* `Registry.slots_succ`: the same arguments receive a token, or every token is received.
* `Registry.fit_append_of_positional`: a match with one more positional token.
-/

namespace CommandLine

/-! ## One more token to spare -/

/-- With one more token to spare the same groups are served, or all tokens are needed. -/
theorem chooseGroups_succ {groups : List ArgumentGroup}
    (hnonempty : ∀ group ∈ groups, group.members ≠ []) (spare : Nat) :
    chooseGroups (spare + 1) groups = chooseGroups spare groups ∨
      ((chooseGroups (spare + 1) groups).flatMap ArgumentGroup.members).length = spare + 1 := by
  induction groups generalizing spare with
  | nil => exact .inl rfl
  | cons group groups ih =>
    have hrest : ∀ other ∈ groups, other.members ≠ [] :=
      fun other hother => hnonempty other (List.mem_cons_of_mem _ hother)
    rcases Nat.lt_trichotomy group.members.length (spare + 1) with hboth | hnew | hnone
    · -- both choices serve the group, and the new one is still one token ahead
      have hspare : spare + 1 - group.members.length = spare - group.members.length + 1 := by omega
      rw [chooseGroups, if_pos (by omega), chooseGroups, if_pos (by omega), hspare]
      rcases ih hrest (spare - group.members.length) with hsame | hall
      · left
        rw [hsame]
      · right
        rw [List.flatMap_cons, List.length_append, hall]
        omega
    · -- the group fits by the new token only, and nothing is left for the others
      right
      rw [chooseGroups, if_pos (by omega), hnew, Nat.sub_self, chooseGroups_zero hrest]
      simp [hnew]
    · rw [chooseGroups, if_neg (by omega), chooseGroups, if_neg (by omega)]
      exact ih hrest spare

theorem zip_append_of_length_le {names tokens : List Text} (h : names.length ≤ tokens.length)
    (rest : List Text) : names.zip (tokens ++ rest) = names.zip tokens := by
  induction names generalizing tokens with
  | nil => rfl
  | cons name names ih =>
    cases tokens with
    | nil => simp at h
    | cons token tokens =>
      rw [List.cons_append, List.zip_cons_cons, List.zip_cons_cons, ih (by simpa using h)]

namespace Registry

variable {registry : Registry} {tokens : List Text} {pieces : List Piece} {token : Text}

/-- The same arguments receive a token when there is one more, or all tokens are received. -/
theorem slots_succ (h : registry.WellFormed) {supply : Nat}
    (henough : registry.mandatoryCount ≤ supply) :
    registry.slots (supply + 1) = registry.slots supply ∨
      (registry.slots (supply + 1)).length = supply + 1 := by
  have hspare : supply + 1 - registry.mandatoryCount = supply - registry.mandatoryCount + 1 := by
    omega
  have hnonempty : ∀ group ∈ (Layout.ofArguments registry.arguments).ranked,
      group.members ≠ [] := fun group hgroup =>
    h.divides.nonempty group ((Layout.ranked_perm _).mem_iff.1 hgroup)
  rcases chooseGroups_succ hnonempty (supply - registry.mandatoryCount) with hsame | hall
  · left
    rw [slots_eq, slots_eq, chosen, chosen, hspare, hsame]
  · right
    rw [length_slots h, chosen, hspare, hall]
    omega

/-! ## One more piece -/

/-- A token behind a command line is positional if it has no dash in front, or if the terminator has
    ended the options. -/
theorem Reads.append_positional (hreads : registry.Reads tokens pieces)
    (hpositional : token.head? ≠ some '-' ∨ .terminator ∈ pieces) :
    registry.Reads (tokens ++ [token]) (pieces ++ [.positional token]) := by
  induction hreads with
  | done =>
    rcases hpositional with htoken | hended
    · exact .piece (.positional htoken) .done
    · cases hended
  | ended rest =>
    have hended : registry.Reads (['-', '-'] :: (rest ++ [token]))
        (.terminator :: (rest ++ [token]).map .positional) := .ended _
    rw [List.map_append] at hended
    exact hended
  | @piece piece rest pieces hpiece _ ih =>
    rw [List.append_assoc, List.cons_append]
    refine .piece hpiece (ih (hpositional.imp_right fun hended => ?_))
    rcases List.mem_cons.1 hended with rfl | hended
    · cases hpiece
    · exact hended

theorem occurrences_append_positional (pieces : List Piece) (token : Text) :
    occurrences (pieces ++ [.positional token]) = occurrences pieces := by
  rw [occurrences_append]
  exact List.append_nil _

theorem positionals_append_positional (pieces : List Piece) (token : Text) :
    positionals (pieces ++ [.positional token]) = positionals pieces ++ [token] := by
  rw [positionals_append]
  rfl

/-! ## Matches -/

/-- How many arguments are bound. -/
def boundCount (registry : Registry) (found : Match) : Nat :=
  registry.arguments.countP fun argument => found.contains argument.name

/-- As many arguments are bound as receive a token. -/
theorem boundCount_matchOf (h : registry.WellFormed)
    (henough : registry.mandatoryArguments.length ≤ (positionals pieces).length) :
    registry.boundCount (registry.matchOf pieces) =
      (registry.slots (positionals pieces).length).length := by
  rw [boundCount, slots_eq, List.length_map, ← List.countP_eq_length_filter]
  refine List.countP_congr fun argument hargument => ?_
  rw [contains_argument h henough hargument, served]

/-- Where the same arguments receive a token, the bindings are the same, and the new token
    remains. -/
theorem matchOf_append_of_slots_eq (h : registry.WellFormed)
    (henough : registry.mandatoryArguments.length ≤ (positionals pieces).length)
    (hslots : registry.slots ((positionals pieces).length + 1) =
      registry.slots (positionals pieces).length) :
    registry.matchOf (pieces ++ [.positional token]) =
      ⟨(registry.matchOf pieces).bindings, (registry.matchOf pieces).remaining ++ [token]⟩ := by
  have hle := length_slots_le h (mandatoryCount_eq ▸ henough)
  have hassignment : registry.assignment (positionals pieces ++ [token]) =
      registry.assignment (positionals pieces) := by
    rw [assignment, List.length_append, List.length_singleton, hslots, zip_append_of_length_le hle,
      assignment]
  have hsettle : registry.settle (pieces ++ [.positional token]) = registry.settle pieces := by
    funext option
    rw [settle, occurrences_append_positional, positionals_append_positional, hassignment, settle]
  rw [matchOf, hsettle, positionals_append_positional, List.length_append, List.length_singleton,
    hslots, List.drop_append_of_le_length hle, matchOf]

/-- Where all tokens are received, nothing remains. -/
theorem remaining_matchOf_append_of_length_slots
    (hslots : (registry.slots ((positionals pieces).length + 1)).length =
      (positionals pieces).length + 1) :
    (registry.matchOf (pieces ++ [.positional token])).remaining = [] := by
  rw [matchOf, positionals_append_positional, List.length_append, List.length_singleton, hslots]
  exact List.drop_eq_nil_of_le (by simp)

/-- A match of a command line is followed by a match of the same command line with one more
    positional token. Either nothing changes but that the new token remains, or no token remains. In
    both cases no fewer arguments are bound. -/
theorem fit_append_of_positional {definition : Text}
    (hread : Registry.read definition = .ok registry) {found : Match}
    (hfit : registry.fit tokens = .ok found)
    (hpositional : token.head? ≠ some '-' ∨
      ∃ pieces, registry.Reads tokens pieces ∧ .terminator ∈ pieces) :
    ∃ found', registry.fit (tokens ++ [token]) = .ok found' ∧
      (found'.bindings = found.bindings ∧ found'.remaining = found.remaining ++ [token] ∨
        found'.remaining = []) ∧
      registry.boundCount found ≤ registry.boundCount found' := by
  have h := wellFormed_of_read hread
  obtain ⟨pieces, hreads, henough, hgiven⟩ := fits_of_fit h hfit
  obtain rfl : registry.matchOf pieces = found :=
    Except.ok.inj ((fit_of_fits h hreads henough hgiven).symm.trans hfit)
  have hended : token.head? ≠ some '-' ∨ .terminator ∈ pieces := by
    refine hpositional.imp_right fun ⟨others, hothers, hmem⟩ => ?_
    rwa [hreads.unique h hothers] at hmem
  have hlength : (positionals (pieces ++ [.positional token])).length =
      (positionals pieces).length + 1 := by
    rw [positionals_append_positional, List.length_append, List.length_singleton]
  have henough' : registry.mandatoryArguments.length ≤
      (positionals (pieces ++ [.positional token])).length := by omega
  have hgiven' : ∀ option ∈ registry.options, option.IsGiven (pieces ++ [.positional token]) := by
    intro option hoption hkind hmandatory
    obtain ⟨piece, hpiece, hmentioned⟩ := hgiven option hoption hkind hmandatory
    exact ⟨piece, List.mem_append_left _ hpiece, hmentioned⟩
  refine ⟨_, fit_of_fits h (hreads.append_positional hended) henough' hgiven', ?_⟩
  rw [boundCount_matchOf h henough, boundCount_matchOf h henough', hlength]
  rcases slots_succ h (mandatoryCount_eq ▸ henough) with hsame | hall
  · rw [matchOf_append_of_slots_eq h henough hsame, hsame]
    exact ⟨.inl ⟨rfl, rfl⟩, le_rfl⟩
  · have hle := length_slots_le h (mandatoryCount_eq ▸ henough)
    exact ⟨.inr (remaining_matchOf_append_of_length_slots hall), by omega⟩

/-- A second token drops the group of one argument in favour of the group of two. -/
theorem fit_append_of_larger_group : ∃ registry,
    Registry.read ['[', 'a', ']', ' ', '[', 'b', ' ', 'c', ']'] = .ok registry ∧
      registry.fit [['1']] = .ok ⟨[(['a'], .positional ['1'])], []⟩ ∧
      ∃ found', registry.fit ([['1']] ++ [['2']]) = .ok found' ∧
        found'.contains ['a'] = false ∧
        (found'.bindings = [(['a'], .positional ['1'])] ∧ found'.remaining = [] ++ [['2']] ∨
          found'.remaining = []) ∧
        registry.boundCount ⟨[(['a'], .positional ['1'])], []⟩ ≤ registry.boundCount found' := by
  have h : Registry.read ['[', 'a', ']', ' ', '[', 'b', ' ', 'c', ']'] =
    .ok ⟨[⟨⟨.argument, ['a']⟩, [], false, some 1⟩, ⟨⟨.argument, ['b']⟩, [], false, some 2⟩,
      ⟨⟨.argument, ['c']⟩, [], false, some 2⟩], none⟩ := rfl
  obtain ⟨found', hfit', hmatch⟩ :=
    @fit_append_of_positional _ [['1']] ['2'] _ h _ rfl (.inl (by simp))
  have hdropped : found'.contains ['a'] = false := by
    cases hfit'
    rfl
  exact ⟨_, h, rfl, found', hfit', hdropped, hmatch⟩

end Registry

end CommandLine

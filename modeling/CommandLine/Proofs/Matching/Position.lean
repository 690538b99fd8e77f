import CommandLine.Matching.Match
import CommandLine.Proofs.Matching.Reading

/-!
# The position of options

Options are found wherever they stand in front of the terminator, and what a command line matches
depends on two rows of it only: the option tokens with their values, and the positional tokens. So
the positional tokens may as well all stand at the end, behind the terminator.

Results:
* `Registry.Reads.unique`: a command line has one reading.
* `Registry.fit_of_reads`: what matches depends on the two rows.
* `Registry.fit_eq_fit_optionTokens_append`: the positional tokens may be moved to the end.
-/

namespace CommandLine

/-! ## The two rows -/

/-- Whether a piece is an option token with its value. -/
def Piece.isOption : Piece → Bool
  | .option _ _ _ => true
  | _ => false

/-- The option tokens of a command line with the values that they read, in order. -/
def optionTokens (pieces : List Piece) : List Text :=
  (pieces.filter Piece.isOption).flatMap Piece.tokens

theorem occurrences_cons (piece : Piece) (pieces : List Piece) :
    occurrences (piece :: pieces) = piece.occurrences ++ occurrences pieces := rfl

theorem positionals_cons (piece : Piece) (pieces : List Piece) :
    positionals (piece :: pieces) = piece.positional?.toList ++ positionals pieces := by
  cases piece <;> rfl

theorem occurrences_append (front rest : List Piece) :
    occurrences (front ++ rest) = occurrences front ++ occurrences rest :=
  List.flatMap_append

theorem positionals_append (front rest : List Piece) :
    positionals (front ++ rest) = positionals front ++ positionals rest :=
  List.filterMap_append

theorem occurrences_map_positional (tokens : List Text) :
    occurrences (tokens.map .positional) = [] := by
  induction tokens with
  | nil => rfl
  | cons token tokens ih => rw [List.map_cons, occurrences_cons, ih]; rfl

theorem positionals_map_positional (tokens : List Text) :
    positionals (tokens.map .positional) = tokens := by
  induction tokens with
  | nil => rfl
  | cons token tokens ih => rw [List.map_cons, positionals_cons, ih]; rfl

theorem occurrences_filter_isOption (pieces : List Piece) :
    occurrences (pieces.filter Piece.isOption) = occurrences pieces := by
  induction pieces with
  | nil => rfl
  | cons piece pieces ih =>
    cases piece with
    | option token value said =>
      rw [List.filter_cons_of_pos rfl, occurrences_cons, occurrences_cons, ih]
    | positional token => exact ih
    | terminator => exact ih

theorem positionals_filter_isOption (pieces : List Piece) :
    positionals (pieces.filter Piece.isOption) = [] := by
  rw [positionals, List.filterMap_eq_nil_iff]
  intro piece hpiece
  cases piece with
  | option => rfl
  | positional => simp [Piece.isOption] at hpiece
  | terminator => rfl

namespace Registry

variable {registry : Registry}

/-! ## Readings -/

/-- A command line has one reading. -/
theorem Reads.unique (h : registry.WellFormed) {tokens : List Text} {pieces others : List Piece}
    (hreads : registry.Reads tokens pieces) (hothers : registry.Reads tokens others) :
    others = pieces := by
  have heq := (scan_of_reads h hothers).symm.trans (scan_of_reads h hreads)
  cases heq
  rfl

theorem Reads.append {front pieces : List Piece} {rest : List Text}
    (hfront : ∀ piece ∈ front, registry.Admits piece) (hrest : registry.Reads rest pieces) :
    registry.Reads (front.flatMap Piece.tokens ++ rest) (front ++ pieces) := by
  induction front with
  | nil => exact hrest
  | cons piece front ih =>
    rw [List.flatMap_cons, List.append_assoc]
    exact .piece (hfront piece List.mem_cons_self)
      (ih fun p hp => hfront p (List.mem_cons_of_mem _ hp))

theorem Reads.admits {tokens : List Text} {pieces : List Piece}
    (hreads : registry.Reads tokens pieces) {piece : Piece} (hpiece : piece ∈ pieces)
    (hoption : piece.isOption = true) : registry.Admits piece := by
  induction hreads with
  | done => cases hpiece
  | ended rest =>
    rcases List.mem_cons.1 hpiece with rfl | hpiece
    · cases hoption
    · obtain ⟨token, -, rfl⟩ := List.mem_map.1 hpiece
      cases hoption
  | piece hfirst _ ih =>
    rcases List.mem_cons.1 hpiece with rfl | hpiece
    · exact hfirst
    · exact ih hpiece

/-- The two rows of a command line, one behind the other, are read as they were before. -/
theorem Reads.optionTokens_append {tokens : List Text} {pieces : List Piece}
    (hreads : registry.Reads tokens pieces) (rest : List Text) :
    registry.Reads (optionTokens pieces ++ ['-', '-'] :: rest)
      (pieces.filter Piece.isOption ++ .terminator :: rest.map .positional) := by
  refine Reads.append (fun piece hpiece => ?_) (.ended rest)
  obtain ⟨hmem, hoption⟩ := List.mem_filter.1 hpiece
  exact hreads.admits hmem hoption

/-! ## Matching -/

theorem fit_of_reads (h : registry.WellFormed) {tokens : List Text} {pieces : List Piece}
    (hreads : registry.Reads tokens pieces) : registry.fit tokens = registry.fitPieces pieces := by
  rw [fit, scan_of_reads h hreads]

theorem fit_of_firstMisfit (h : registry.WellFormed) {tokens : List Text} {reason : Misfit}
    (hmisfit : registry.FirstMisfit tokens reason) : registry.fit tokens = .error reason := by
  rw [fit, scan_of_firstMisfit h hmisfit]

/-- What matches depends on what is said about the options and on the positional tokens. -/
theorem fitPieces_congr {pieces others : List Piece}
    (hsaid : occurrences pieces = occurrences others)
    (hleft : positionals pieces = positionals others) :
    registry.fitPieces pieces = registry.fitPieces others := by
  rw [fitPieces, fitPieces, hsaid, hleft]

/-- A token that does not fit is refused or lacks its value. -/
theorem FirstMisfit.exists_written {tokens : List Text} {reason : Misfit}
    (hmisfit : registry.FirstMisfit tokens reason) :
    ∃ written, reason = .unknown written ∨ reason = .wrongForm written ∨
      reason = .valueMissing written := by
  induction hmisfit with
  | here _ hoffends =>
    cases hoffends with
    | refused hrefused =>
      obtain ⟨_, _, _, _, _, _, hreason⟩ := hrefused
      cases hreason with
      | unknown => exact ⟨_, .inl rfl⟩
      | wrongForm => exact ⟨_, .inr (.inl rfl)⟩
    | unfed => exact ⟨_, .inr (.inr rfl)⟩
  | later _ _ ih => exact ih

/-- Where no token is at fault, a command line has one reading, and it makes no difference if the
    option tokens with their values come first, then the terminator, and then the positional tokens:
    the match is the same, or the reason why there is none. -/
theorem fit_eq_fit_optionTokens_append {definition : Text}
    (hread : Registry.read definition = .ok registry) {tokens : List Text}
    (hfit : ∀ written, registry.fit tokens ≠ .error (.unknown written) ∧
      registry.fit tokens ≠ .error (.wrongForm written) ∧
      registry.fit tokens ≠ .error (.valueMissing written)) :
    ∃ pieces, registry.Reads tokens pieces ∧
      (∀ others, registry.Reads tokens others → others = pieces) ∧
      registry.fit tokens =
        registry.fit (optionTokens pieces ++ [['-', '-']] ++ positionals pieces) := by
  have h := wellFormed_of_read hread
  rcases reads_or_firstMisfit registry tokens with ⟨pieces, hreads⟩ | ⟨reason, hmisfit⟩
  · refine ⟨pieces, hreads, fun others => hreads.unique h, ?_⟩
    rw [List.append_assoc, List.singleton_append, fit_of_reads h hreads,
      fit_of_reads h (hreads.optionTokens_append _)]
    refine fitPieces_congr ?_ ?_
    · rw [occurrences_append, occurrences_filter_isOption, occurrences_cons,
        occurrences_map_positional]
      exact (List.append_nil _).symm
    · rw [positionals_append, positionals_filter_isOption, positionals_cons,
        positionals_map_positional]
      rfl
  · have herror := fit_of_firstMisfit h hmisfit
    obtain ⟨written, rfl | rfl | rfl⟩ := hmisfit.exists_written
    · exact absurd herror (hfit written).1
    · exact absurd herror (hfit written).2.1
    · exact absurd herror (hfit written).2.2

/-- Here the first `--` is a value and the second one the terminator. -/
theorem fit_eq_of_dashes : ∃ registry, Registry.read ['-', 'n', '=', ' ', 'a'] = .ok registry ∧
    registry.fit [['p'], ['-', 'n'], ['-', '-'], ['-', '-'], ['-', 'x']] =
      .ok ⟨[(['n'], .value (some ['-', '-'])), (['a'], .positional ['p'])], [['-', 'x']]⟩ ∧
    ∃ pieces, registry.Reads [['p'], ['-', 'n'], ['-', '-'], ['-', '-'], ['-', 'x']] pieces ∧
      (∀ others, registry.Reads [['p'], ['-', 'n'], ['-', '-'], ['-', '-'], ['-', 'x']] others →
        others = pieces) ∧
      registry.fit [['p'], ['-', 'n'], ['-', '-'], ['-', '-'], ['-', 'x']] =
        registry.fit (optionTokens pieces ++ [['-', '-']] ++ positionals pieces) := by
  have h : Registry.read ['-', 'n', '=', ' ', 'a'] =
    .ok ⟨[⟨⟨.short, ['n']⟩, [], true, none⟩, ⟨⟨.argument, ['a']⟩, [], false, none⟩], none⟩ := rfl
  have hfit : Registry.fit
      ⟨[⟨⟨.short, ['n']⟩, [], true, none⟩, ⟨⟨.argument, ['a']⟩, [], false, none⟩], none⟩
      [['p'], ['-', 'n'], ['-', '-'], ['-', '-'], ['-', 'x']] =
    .ok ⟨[(['n'], .value (some ['-', '-'])), (['a'], .positional ['p'])], [['-', 'x']]⟩ := rfl
  refine ⟨_, h, hfit, fit_eq_fit_optionTokens_append h fun written => ?_⟩
  simp [hfit]

end Registry

end CommandLine

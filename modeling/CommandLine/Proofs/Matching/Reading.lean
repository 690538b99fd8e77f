import CommandLine.Matching.Scan
import CommandLine.Proofs.Matching.Request

/-!
# How a command line is read

A command line is a row of pieces: option tokens with the values that they read, and positional
tokens, until the terminator makes positional whatever is left. It has exactly one reading, or else
a first token that does not fit: one that mentions a refused form, or one that stands at the very
end and asks for a value. The scan finds the one or the other.

Results:
* `Registry.scan_eq_ok_iff`: the scan finds the reading.
* `Registry.scan_eq_error_iff`: it fails at the first token that does not fit.
-/

namespace CommandLine.Registry

/-! ## Readings -/

/-- A piece in option position that fits: an option token that mentions declared forms only, with a
    value behind it just if it asks for one, or a token without a dash in front. -/
inductive Admits (registry : Registry) : Piece → Prop
  | option {token : Text} {mention : Mention} {owners : List Declaration} {value : Option Text}
      (hshape : Shape.ofToken token = .mention mention)
      (howners : registry.Owned owners mention.forms)
      (hvalue : value.isSome = asksValue owners) :
      Admits registry (.option token value (mention.said owners value))
  | positional {token : Text} (htoken : token.head? ≠ some '-') :
      Admits registry (.positional token)

/-- The reading of a command line from left to right. -/
inductive Reads (registry : Registry) : List Text → List Piece → Prop
  | done : Reads registry [] []
  | ended (rest : List Text) :
      Reads registry (['-', '-'] :: rest) (.terminator :: rest.map .positional)
  | piece {piece : Piece} {rest : List Text} {pieces : List Piece} (hpiece : registry.Admits piece)
      (hrest : Reads registry rest pieces) : Reads registry (piece.tokens ++ rest) (piece :: pieces)

/-- Why a mention in front of these tokens does not fit. -/
inductive Offends (registry : Registry) (mention : Mention) : List Text → Misfit → Prop
  /-- One of its forms is refused, and none in front of that one. -/
  | refused {rest : List Text} {reason : Misfit}
      (h : registry.FirstRefused mention.forms reason) : Offends registry mention rest reason
  /-- It asks for a value, and there is no token left. -/
  | unfed {owners : List Declaration} {form : Form}
      (howners : registry.Owned owners mention.forms) (hasks : asksValue owners = true)
      (hform : mention.forms.getLast? = some form) :
      Offends registry mention [] (.valueMissing form.render)

/-- The first token in option position that does not fit, and why. -/
inductive FirstMisfit (registry : Registry) : List Text → Misfit → Prop
  | here {token : Text} {mention : Mention} {rest : List Text} {reason : Misfit}
      (hshape : Shape.ofToken token = .mention mention)
      (h : registry.Offends mention rest reason) : FirstMisfit registry (token :: rest) reason
  | later {piece : Piece} {rest : List Text} {reason : Misfit} (hpiece : registry.Admits piece)
      (hrest : FirstMisfit registry rest reason) :
      FirstMisfit registry (piece.tokens ++ rest) reason

variable {registry : Registry}

/-- Where a value is read, there is a last option that reads it. -/
theorem Owned.exists_last {owners : List Declaration} {forms : List Form}
    (howners : registry.Owned owners forms) (hasks : asksValue owners = true) :
    ∃ owner form, owners.getLast? = some owner ∧ forms.getLast? = some form := by
  have hne : owners ≠ [] := by
    rintro rfl
    cases hasks
  have hforms : forms ≠ [] := by
    rintro rfl
    cases howners
    exact hne rfl
  exact ⟨_, _, List.getLast?_eq_some_getLast hne, List.getLast?_eq_some_getLast hforms⟩

/-- A command line is read to its end, or there is a token that does not fit. -/
theorem reads_or_firstMisfit (registry : Registry) (tokens : List Text) :
    (∃ pieces, registry.Reads tokens pieces) ∨ ∃ reason, registry.FirstMisfit tokens reason := by
  have extend : ∀ {piece : Piece} {rest : List Text}, registry.Admits piece →
      ((∃ pieces, registry.Reads rest pieces) ∨ ∃ reason, registry.FirstMisfit rest reason) →
      (∃ pieces, registry.Reads (piece.tokens ++ rest) pieces) ∨
        ∃ reason, registry.FirstMisfit (piece.tokens ++ rest) reason := by
    rintro piece rest hpiece (⟨pieces, hrest⟩ | ⟨reason, hrest⟩)
    · exact .inl ⟨_, .piece hpiece hrest⟩
    · exact .inr ⟨_, .later hpiece hrest⟩
  match tokens with
  | [] => exact .inl ⟨_, .done⟩
  | token :: rest =>
    match hshape : Shape.ofToken token with
    | .terminator =>
      obtain rfl := Shape.ofToken_eq_terminator_iff.1 hshape
      exact .inl ⟨_, .ended rest⟩
    | .positional =>
      exact extend (.positional (Shape.ofToken_eq_positional_iff.1 hshape))
        (reads_or_firstMisfit registry rest)
    | .mention mention =>
      rcases owned_or_firstRefused registry mention.forms with ⟨owners, howners⟩ | ⟨reason, h⟩
      · cases hasks : asksValue owners with
        | false =>
          have hpiece : registry.Admits (.option token none (mention.said owners none)) :=
            .option hshape howners hasks.symm
          exact extend hpiece (reads_or_firstMisfit registry rest)
        | true =>
          match rest with
          | [] =>
            obtain ⟨_, form, -, hform⟩ := howners.exists_last hasks
            exact .inr ⟨_, .here hshape (.unfed howners hasks hform)⟩
          | value :: rest =>
            have hpiece : registry.Admits (.option token (some value)
                (mention.said owners (some value))) := .option hshape howners hasks.symm
            exact extend hpiece (reads_or_firstMisfit registry rest)
      · exact .inr ⟨reason, .here hshape (.refused h)⟩
termination_by tokens.length

/-! ## The scan -/

theorem scan_of_request_none {token : Text} {mention : Mention} {said : List Occurrence}
    (hshape : Shape.ofToken token = .mention mention)
    (hrequest : registry.request mention = .ok ⟨said, none⟩) (rest : List Text) :
    registry.scan (token :: rest) = (registry.scan rest).map (.option token none said :: ·) := by
  simp only [scan, hshape, hrequest]

theorem scan_of_request_some {token : Text} {mention : Mention} {said : List Occurrence}
    {owner value : Text} {form : Form} (hshape : Shape.ofToken token = .mention mention)
    (hrequest : registry.request mention = .ok ⟨said, some ⟨owner, form⟩⟩) (rest : List Text) :
    registry.scan (token :: value :: rest) = (registry.scan rest).map
      (.option token (some value) (said ++ [⟨owner, .given value⟩]) :: ·) := by
  simp only [scan, hshape, hrequest]

/-- A piece that fits is found. -/
theorem scan_of_admits (h : registry.WellFormed) {piece : Piece} (hpiece : registry.Admits piece)
    (rest : List Text) :
    registry.scan (piece.tokens ++ rest) = (registry.scan rest).map (piece :: ·) := by
  cases hpiece with
  | positional htoken =>
    rw [Piece.tokens, List.singleton_append, scan, Shape.ofToken_eq_positional_iff.2 htoken]
  | @option token mention owners value hshape howners hvalue =>
    cases value with
    | none =>
      have hasks : asksValue owners = false := hvalue.symm
      have hrequest := request_of_owned h howners
      rw [Mention.requestOf, if_neg (by simp [hasks])] at hrequest
      exact scan_of_request_none hshape hrequest rest
    | some value =>
      have hasks : asksValue owners = true := hvalue.symm
      obtain ⟨owner, form, howner, hform⟩ := howners.exists_last hasks
      have hrequest := request_of_owned h howners
      rw [Mention.requestOf, if_pos hasks, howner, hform] at hrequest
      rw [Mention.said, howner]
      exact scan_of_request_some hshape hrequest rest

theorem scan_of_offends (h : registry.WellFormed) {token : Text} {mention : Mention}
    {rest : List Text} {reason : Misfit} (hshape : Shape.ofToken token = .mention mention)
    (hoffends : registry.Offends mention rest reason) :
    registry.scan (token :: rest) = .error reason := by
  cases hoffends with
  | refused hrefused => simp only [scan, hshape, request_of_firstRefused h hrefused]
  | unfed howners hasks hform =>
    obtain ⟨owner, _, howner, -⟩ := howners.exists_last hasks
    have hrequest := request_of_owned h howners
    rw [Mention.requestOf, if_pos hasks, howner, hform] at hrequest
    simp only [scan, hshape, hrequest, Option.bind_some, Option.map_some]

theorem scan_of_reads (h : registry.WellFormed) {tokens : List Text} {pieces : List Piece}
    (hreads : registry.Reads tokens pieces) : registry.scan tokens = .ok pieces := by
  induction hreads with
  | done => rfl
  | ended rest => rfl
  | piece hpiece _ ih => rw [scan_of_admits h hpiece, ih, map_ok]

theorem scan_of_firstMisfit (h : registry.WellFormed) {tokens : List Text} {reason : Misfit}
    (hmisfit : registry.FirstMisfit tokens reason) : registry.scan tokens = .error reason := by
  induction hmisfit with
  | here hshape hoffends => exact scan_of_offends h hshape hoffends
  | later hpiece _ ih => rw [scan_of_admits h hpiece, ih, map_error]

/-- The scan finds the reading of a command line. -/
theorem scan_eq_ok_iff (h : registry.WellFormed) {tokens : List Text} {pieces : List Piece} :
    registry.scan tokens = .ok pieces ↔ registry.Reads tokens pieces := by
  refine ⟨fun hscan => ?_, scan_of_reads h⟩
  rcases reads_or_firstMisfit registry tokens with ⟨found, hfound⟩ | ⟨reason, hreason⟩
  · rw [scan_of_reads h hfound] at hscan
    cases hscan
    exact hfound
  · rw [scan_of_firstMisfit h hreason] at hscan
    cases hscan

/-- The scan fails at the first token that does not fit. -/
theorem scan_eq_error_iff (h : registry.WellFormed) {tokens : List Text} {reason : Misfit} :
    registry.scan tokens = .error reason ↔ registry.FirstMisfit tokens reason := by
  refine ⟨fun hscan => ?_, scan_of_firstMisfit h⟩
  rcases reads_or_firstMisfit registry tokens with ⟨found, hfound⟩ | ⟨other, hother⟩
  · rw [scan_of_reads h hfound] at hscan
    cases hscan
  · rw [scan_of_firstMisfit h hother] at hscan
    cases hscan
    exact hother

end CommandLine.Registry

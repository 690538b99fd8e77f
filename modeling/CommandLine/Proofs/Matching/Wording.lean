import CommandLine.Proofs.Matching.Choice

/-!
# The same command line in other words

What a command line matches depends on what it says about the options and on its positional tokens,
which is its gist. A token in option position may be put in other words as long as the gist is the
same: a form may be replaced by another one of the same kind that belongs to the same option, and a
short token of several letters that read no value may be taken apart into tokens of one letter.

Results:
* `Registry.fit_append_of_gist_eq`: tokens of the same gist match the same.
* `Registry.toOption_fit_of_rewords`: a form is replaced by another one of its option.
* `Registry.fit_eq_fit_letters`: a short token is taken apart into its letters.
-/

namespace CommandLine.Registry

variable {registry : Registry} {front tokens rest : List Text} {pieces : List Piece}

/-! ## The gist of a command line -/

/-- What a command line says about the options, and its positional tokens. -/
def gist (registry : Registry) (tokens : List Text) :
    Except Misfit (List Occurrence × List Text) :=
  (registry.scan tokens).map fun pieces => (occurrences pieces, positionals pieces)

/-- The gist of tokens behind others that are no positional tokens and say this. -/
def gistBehind (registry : Registry) (said : List Occurrence) (tokens : List Text) :
    Except Misfit (List Occurrence × List Text) :=
  (registry.gist tokens).map fun rows => (said ++ rows.1, rows.2)

/-- The next token stands in option position: these tokens are read to their end before the options
    have ended, or one of them does not fit, so that it makes no difference what follows. -/
inductive OptionPosition (registry : Registry) (front : List Text) : Prop
  | reached {pieces : List Piece} (hreads : registry.Reads front pieces)
      (hopen : .terminator ∉ pieces)
  | unreached {reason : Misfit} (hscan : ∀ rest, registry.scan (front ++ rest) = .error reason)

/-- Tokens that are read to their end before the options have ended are those of pieces that fit. -/
theorem Reads.exists_admits (hreads : registry.Reads front pieces) (hopen : .terminator ∉ pieces) :
    front = pieces.flatMap Piece.tokens ∧ ∀ piece ∈ pieces, registry.Admits piece := by
  induction hreads with
  | done => simp
  | ended rest => simp at hopen
  | piece hpiece _ ih =>
    obtain ⟨htokens, hadmits⟩ := ih fun hended => hopen (List.mem_cons_of_mem _ hended)
    rw [List.flatMap_cons, ← htokens]
    exact ⟨rfl, by simpa using ⟨hpiece, hadmits⟩⟩

/-- Pieces that fit are found in front of whatever follows. -/
theorem scan_append_of_admits (h : registry.WellFormed)
    (hpieces : ∀ piece ∈ pieces, registry.Admits piece) (rest : List Text) :
    registry.scan (pieces.flatMap Piece.tokens ++ rest) =
      (registry.scan rest).map (pieces ++ ·) := by
  induction pieces with
  | nil => cases hscan : registry.scan rest <;> simp [hscan]
  | cons piece pieces ih =>
    rw [List.flatMap_cons, List.append_assoc,
      scan_of_admits h (hpieces piece List.mem_cons_self),
      ih fun other hother => hpieces other (List.mem_cons_of_mem _ hother)]
    cases registry.scan rest <;> rfl

theorem fit_append_of_admits (h : registry.WellFormed)
    (hpieces : ∀ piece ∈ pieces, registry.Admits piece) (rest : List Text) :
    registry.fit (pieces.flatMap Piece.tokens ++ rest) =
      (registry.scan rest).bind fun others => registry.fitPieces (pieces ++ others) := by
  rw [fit, scan_append_of_admits h hpieces]
  cases registry.scan rest <;> rfl

theorem fitPieces_append_congr {others : List Piece}
    (hrows : (occurrences pieces, positionals pieces) = (occurrences others, positionals others))
    (front : List Piece) :
    registry.fitPieces (front ++ pieces) = registry.fitPieces (front ++ others) := by
  obtain ⟨hsaid, hleft⟩ := Prod.mk.inj hrows
  refine fitPieces_congr ?_ ?_
  · rw [occurrences_append, occurrences_append, hsaid]
  · rw [positionals_append, positionals_append, hleft]

/-- Tokens in option position are read on their own, and their pieces follow those in front. -/
theorem OptionPosition.fit_append (h : registry.WellFormed)
    (hposition : registry.OptionPosition front) :
    (∃ reason, ∀ rest, registry.fit (front ++ rest) = .error reason) ∨
      ∃ pieces : List Piece, ∀ rest, registry.fit (front ++ rest) =
        (registry.scan rest).bind fun others => registry.fitPieces (pieces ++ others) := by
  cases hposition with
  | @reached pieces hreads hopen =>
    obtain ⟨rfl, hpieces⟩ := hreads.exists_admits hopen
    exact .inr ⟨pieces, fit_append_of_admits h hpieces⟩
  | unreached hscan => exact .inl ⟨_, fun rest => by rw [fit, hscan]⟩

/-- Tokens of the same gist in option position match the same, or fail for the same reason. -/
theorem fit_append_of_gist_eq (h : registry.WellFormed)
    (hposition : registry.OptionPosition front) {others : List Text}
    (hgist : registry.gist tokens = registry.gist others) :
    registry.fit (front ++ tokens) = registry.fit (front ++ others) := by
  rcases hposition.fit_append h with ⟨reason, hfit⟩ | ⟨pieces, hfit⟩
  · rw [hfit, hfit]
  · rw [hfit, hfit]
    unfold gist at hgist
    cases hscan : registry.scan tokens with
    | error reason =>
      rw [hscan] at hgist
      rw [map_eq_error_iff.1 hgist.symm]
    | ok found =>
      rw [hscan] at hgist
      obtain ⟨found', hscan', hrows⟩ := map_eq_ok_iff.1 hgist.symm
      rw [hscan']
      exact fitPieces_append_congr hrows.symm pieces

/-- Where tokens in option position have the same gist or none, they match the same or nothing. -/
theorem toOption_fit_append_of_gist (h : registry.WellFormed)
    (hposition : registry.OptionPosition front) {others : List Text}
    (hgist : registry.gist tokens = registry.gist others ∨
      (∃ reason, registry.gist tokens = .error reason) ∧
        ∃ reason, registry.gist others = .error reason) :
    (registry.fit (front ++ tokens)).toOption = (registry.fit (front ++ others)).toOption := by
  rcases hgist with hgist | ⟨⟨reason, htokens⟩, reason', hothers⟩
  · rw [fit_append_of_gist_eq h hposition hgist]
  · rcases hposition.fit_append h with ⟨reason'', hfit⟩ | ⟨pieces, hfit⟩
    · rw [hfit, hfit]
    · rw [hfit, hfit, map_eq_error_iff.1 htokens, map_eq_error_iff.1 hothers]
      rfl

/-! ## The gist of one token -/

theorem gist_append_of_admits (h : registry.WellFormed)
    (hpieces : ∀ piece ∈ pieces, registry.Admits piece) (hoptions : positionals pieces = [])
    (rest : List Text) :
    registry.gist (pieces.flatMap Piece.tokens ++ rest) =
      registry.gistBehind (occurrences pieces) rest := by
  rw [gist, scan_append_of_admits h hpieces, gistBehind, gist]
  cases registry.scan rest with
  | error reason => rfl
  | ok found =>
    simp only [map_ok, occurrences_append, positionals_append, hoptions, List.nil_append]

/-- An option token that fits says its part, with the value that it takes. -/
theorem gist_of_admits (h : registry.WellFormed) {token : Text} {value : Option Text}
    {said : List Occurrence} (hpiece : registry.Admits (.option token value said))
    (rest : List Text) :
    registry.gist (token :: (value.toList ++ rest)) = registry.gistBehind said rest := by
  have hpieces : ∀ piece ∈ [Piece.option token value said], registry.Admits piece := by
    simpa using hpiece
  simpa [Piece.tokens, occurrences, Piece.occurrences] using
    gist_append_of_admits h hpieces rfl rest

theorem gist_of_offends (h : registry.WellFormed) {token : Text} {mention : Mention}
    {reason : Misfit} (hshape : Shape.ofToken token = .mention mention)
    (hoffends : registry.Offends mention rest reason) :
    registry.gist (token :: rest) = .error reason := by
  rw [gist, scan_of_offends h hshape hoffends, map_error]

/-! ## Another form of the same option -/

/-- The second token is the first one with one form replaced by another form of the same option that
    is of the same kind: a long name by a long name, or a letter by a letter. -/
inductive Rewords (registry : Registry) : Text → Text → Prop
  | long {option : Declaration} {name other : Text} (hname : registry.Declares option ⟨.long, name⟩)
      (hother : registry.Declares option ⟨.long, other⟩) :
      Rewords registry (Mention.long name).token (Mention.long other).token
  | letter {option : Declaration} {before after : Text} {letter other : Char}
      (hletter : registry.Declares option ⟨.short, [letter]⟩)
      (hother : registry.Declares option ⟨.short, [other]⟩)
      (hshort : (before ++ letter :: after).head? ≠ some '-') :
      Rewords registry (Mention.short (before ++ letter :: after)).token
        (Mention.short (before ++ other :: after)).token

/-- The two mentions speak of the same options in the same way. -/
structure Restates (registry : Registry) (mention other : Mention) : Prop where
  reading : other.reading = mention.reading
  owned : ∀ owners, registry.Owned owners other.forms ↔ registry.Owned owners mention.forms

/-- Two forms of one option are declared by no other one. -/
theorem declares_iff_of_declares (hnames : registry.names.Nodup) {option owner : Declaration}
    {form other : Form} (hform : registry.Declares option form)
    (hother : registry.Declares option other) :
    registry.Declares owner other ↔ registry.Declares owner form := by
  constructor
  · intro howner
    rwa [(Declares.unique hnames hother howner rfl).1]
  · intro howner
    rwa [(Declares.unique hnames hform howner rfl).1]

/-- The options of several forms remain the same when one of them is replaced. -/
theorem owned_append_cons_iff {before after : List Form} {form other : Form}
    (h : ∀ owner, registry.Declares owner other ↔ registry.Declares owner form)
    (owners : List Declaration) :
    registry.Owned owners (before ++ other :: after) ↔
      registry.Owned owners (before ++ form :: after) := by
  induction before generalizing owners with
  | nil => cases owners <;> simp [Owned, h]
  | cons first before ih => cases owners <;> simp_all [Owned]

/-- Only an option with a single form has the letter `-`. -/
theorem letter_ne_dash (h : registry.WellFormed) {option : Declaration} {letter other : Char}
    (hletter : registry.Declares option ⟨.short, [letter]⟩)
    (hother : registry.Declares option ⟨.short, [other]⟩) (hne : letter ≠ '-') : other ≠ '-' := by
  rintro rfl
  have hoption := h.options option hother.1
  rcases List.mem_cons.1 hother.2 with hprimary | halias
  · rcases hoption.legible with hlegible | ⟨-, hnil⟩
    · exact absurd rfl (hprimary ▸ hlegible.dash (by simp [← hprimary]))
    · have hform := hletter.2
      rw [Declaration.forms, hnil, List.map_nil, List.mem_singleton] at hform
      exact hne (by simpa using hform.trans hprimary.symm)
  · exact absurd rfl ((hoption.takes.each _ halias).2.2.dash (by simp))

theorem ofToken_short {letters : Text} (hne : letters ≠ []) (hdash : letters.head? ≠ some '-') :
    Shape.ofToken (Mention.short letters).token = .mention (.short letters) := by
  obtain ⟨letter, letters, rfl⟩ := List.exists_cons_of_ne_nil hne
  have hletter : letter ≠ '-' := by simpa using hdash
  simp [Mention.token, Shape.ofToken, hletter]

theorem ofToken_long {name : Text} (hne : name ≠ []) :
    Shape.ofToken (Mention.long name).token = .mention (.long name) := by
  obtain ⟨c, name, rfl⟩ := List.exists_cons_of_ne_nil hne
  rfl

theorem forms_short {letters : Text} (hne : letters ≠ []) :
    (Mention.short letters).forms = letters.map fun letter => ⟨.short, [letter]⟩ := by
  obtain ⟨letter, letters, rfl⟩ := List.exists_cons_of_ne_nil hne
  rfl

/-- Both tokens are option tokens, and they speak of the same options. -/
theorem Rewords.exists_restates (h : registry.WellFormed) {token token' : Text}
    (hrewords : registry.Rewords token token') :
    ∃ mention mention', Shape.ofToken token = .mention mention ∧
      Shape.ofToken token' = .mention mention' ∧ registry.Restates mention mention' := by
  cases hrewords with
  | long hname hother =>
    refine ⟨_, _, ofToken_long (name_ne_nil_of_declares h hname),
      ofToken_long (name_ne_nil_of_declares h hother), rfl, fun owners => ?_⟩
    exact @owned_append_cons_iff _ [] [] _ _
      (fun owner => declares_iff_of_declares h.distinct hname hother) owners
  | @letter option before after letter other hletter hother hshort =>
    have hshort' : (before ++ other :: after).head? ≠ some '-' := by
      cases before with
      | nil => simpa using letter_ne_dash h hletter hother (by simpa using hshort)
      | cons first before => simpa using hshort
    refine ⟨_, _, ofToken_short (by simp) hshort, ofToken_short (by simp) hshort', rfl,
      fun owners => ?_⟩
    rw [forms_short (by simp), forms_short (by simp), List.map_append, List.map_append,
      List.map_cons, List.map_cons]
    exact owned_append_cons_iff
      (fun owner => declares_iff_of_declares h.distinct hletter hother) owners

theorem Restates.said_eq {mention other : Mention} (h : registry.Restates mention other)
    (owners : List Declaration) (value : Option Text) :
    other.said owners value = mention.said owners value := by
  have hplain : other.plain = mention.plain := by
    funext owner
    rw [Mention.plain, Mention.plain, h.reading]
  cases value <;> rw [Mention.said, Mention.said, hplain]

/-- A mention that no options own does not fit. -/
theorem exists_offends_of_not_owned {mention : Mention}
    (h : ∀ owners, ¬ registry.Owned owners mention.forms) (rest : List Text) :
    ∃ reason, registry.Offends mention rest reason := by
  rcases owned_or_firstRefused registry mention.forms with ⟨owners, howners⟩ | ⟨reason, hrefused⟩
  · exact absurd howners (h owners)
  · exact ⟨reason, .refused hrefused⟩

/-- Tokens that speak of the same options have the same gist where the options are known and have
    the value that they ask for. -/
theorem Restates.gist_eq (h : registry.WellFormed) {mention other : Mention}
    (hrestates : registry.Restates mention other) {token token' : Text}
    (hshape : Shape.ofToken token = .mention mention)
    (hshape' : Shape.ofToken token' = .mention other) {owners : List Declaration}
    (howners : registry.Owned owners mention.forms) (value : Option Text)
    (hvalue : value.isSome = asksValue owners) (rest : List Text) :
    registry.gist (token' :: (value.toList ++ rest)) =
      registry.gist (token :: (value.toList ++ rest)) := by
  have howners' := (hrestates.owned owners).2 howners
  rw [gist_of_admits h (.option hshape howners hvalue),
    gist_of_admits h (.option hshape' howners' hvalue), hrestates.said_eq]

/-- Tokens that speak of the same options have the same gist, or both do not fit. -/
theorem Restates.gist_eq_or_errors (h : registry.WellFormed) {mention other : Mention}
    (hrestates : registry.Restates mention other) {token token' : Text}
    (hshape : Shape.ofToken token = .mention mention)
    (hshape' : Shape.ofToken token' = .mention other) (rest : List Text) :
    registry.gist (token' :: rest) = registry.gist (token :: rest) ∨
      (∃ reason, registry.gist (token' :: rest) = .error reason) ∧
        ∃ reason, registry.gist (token :: rest) = .error reason := by
  by_cases howned : ∃ owners, registry.Owned owners mention.forms
  · obtain ⟨owners, howners⟩ := howned
    cases hasks : asksValue owners with
    | false =>
      left
      exact hrestates.gist_eq h hshape hshape' howners none hasks.symm rest
    | true =>
      cases rest with
      | nil =>
        -- both miss the value, and each names the form that it was written in
        have howners' := (hrestates.owned owners).2 howners
        obtain ⟨_, form, -, hform⟩ := howners.exists_last hasks
        obtain ⟨_, form', -, hform'⟩ := howners'.exists_last hasks
        right
        exact ⟨⟨_, gist_of_offends h hshape' (.unfed howners' hasks hform')⟩, _,
          gist_of_offends h hshape (.unfed howners hasks hform)⟩
      | cons value rest =>
        left
        exact hrestates.gist_eq h hshape hshape' howners (some value) hasks.symm rest
  · right
    have hnone := not_exists.1 howned
    obtain ⟨reason, hoffends⟩ := exists_offends_of_not_owned hnone rest
    obtain ⟨reason', hoffends'⟩ := exists_offends_of_not_owned
      (fun owners howners => hnone owners ((hrestates.owned owners).1 howners)) rest
    exact ⟨⟨reason', gist_of_offends h hshape' hoffends'⟩, reason,
      gist_of_offends h hshape hoffends⟩

/-- A form in option position may be replaced by another form of its option that is of the same
    kind: the command line matches as before, with the same match, or it still does not match. -/
theorem toOption_fit_of_rewords {definition : Text}
    (hread : Registry.read definition = .ok registry) (hposition : registry.OptionPosition front)
    {token token' : Text} (hrewords : registry.Rewords token token') (rest : List Text) :
    (registry.fit (front ++ token' :: rest)).toOption =
      (registry.fit (front ++ token :: rest)).toOption := by
  have h := wellFormed_of_read hread
  obtain ⟨mention, mention', hshape, hshape', hrestates⟩ := hrewords.exists_restates h
  exact toOption_fit_append_of_gist h hposition (hrestates.gist_eq_or_errors h hshape hshape' rest)

/-- Here the letter that is replaced decides that the last one reads a value. -/
theorem toOption_fit_of_leading_letter : ∃ registry,
    Registry.read ['-', 'n', '=', '|', '-', 'm', '=', ' ', '-', 'v', ' ', 'a'] = .ok registry ∧
      registry.OptionPosition [['p']] ∧
      registry.Rewords ['-', 'n', 'v', 'n'] ['-', 'm', 'v', 'n'] ∧
      (registry.fit ([['p']] ++ ['-', 'n', 'v', 'n'] :: [['-', '-']])).toOption =
        some ⟨[(['n'], .value (some ['-', '-'])), (['m'], .value (some ['-', '-'])),
          (['v'], .count 1), (['a'], .positional ['p'])], []⟩ ∧
      (registry.fit ([['p']] ++ ['-', 'm', 'v', 'n'] :: [['-', '-']])).toOption =
        (registry.fit ([['p']] ++ ['-', 'n', 'v', 'n'] :: [['-', '-']])).toOption := by
  have h : Registry.read ['-', 'n', '=', '|', '-', 'm', '=', ' ', '-', 'v', ' ', 'a'] =
    .ok ⟨[⟨⟨.short, ['n']⟩, [⟨⟨.short, ['m']⟩, true, none⟩], true, none⟩,
      ⟨⟨.short, ['v']⟩, [], false, none⟩, ⟨⟨.argument, ['a']⟩, [], false, none⟩], none⟩ := rfl
  have hposition : OptionPosition ⟨[⟨⟨.short, ['n']⟩, [⟨⟨.short, ['m']⟩, true, none⟩], true, none⟩,
      ⟨⟨.short, ['v']⟩, [], false, none⟩, ⟨⟨.argument, ['a']⟩, [], false, none⟩], none⟩ [['p']] :=
    .reached (.piece (.positional (by simp)) .done) (by simp)
  have hrewords : Rewords ⟨[⟨⟨.short, ['n']⟩, [⟨⟨.short, ['m']⟩, true, none⟩], true, none⟩,
      ⟨⟨.short, ['v']⟩, [], false, none⟩, ⟨⟨.argument, ['a']⟩, [], false, none⟩], none⟩
      ['-', 'n', 'v', 'n'] ['-', 'm', 'v', 'n'] :=
    @Rewords.letter _ _ [] ['v', 'n'] 'n' 'm' ⟨List.mem_cons_self, by decide⟩
      ⟨List.mem_cons_self, by decide⟩ (by simp)
  exact ⟨_, h, hposition, hrewords, rfl, toOption_fit_of_rewords h hposition hrewords _⟩

/-! ## One letter at a time -/

theorem asksValue_eq_false {owners : List Declaration}
    (h : ∀ owner ∈ owners, owner.takesValue = false) : asksValue owners = false := by
  cases owners with
  | nil => rfl
  | cons owner owners => simp [asksValue, h owner List.mem_cons_self]

/-- Letters of options without values fit one by one, and say together what they say in one
    token. -/
theorem exists_pieces_of_letters (h : registry.WellFormed) {letters : Text}
    {owners : List Declaration}
    (howners : registry.Owned owners (letters.map fun letter => ⟨.short, [letter]⟩))
    (hdash : '-' ∉ letters) (hvalue : ∀ owner ∈ owners, owner.takesValue = false) :
    ∃ pieces, (∀ piece ∈ pieces, registry.Admits piece) ∧
      pieces.flatMap Piece.tokens = letters.map (fun letter => (Mention.short [letter]).token) ∧
      occurrences pieces = owners.map (fun owner => ⟨owner.name, .counted⟩) ∧
      positionals pieces = [] := by
  induction letters generalizing owners with
  | nil =>
    cases howners
    exact ⟨[], by simp, rfl, rfl, rfl⟩
  | cons letter letters ih =>
    cases howners with
    | @cons owner _ owners _ howner howners =>
      obtain ⟨pieces, hpieces, htokens, hsaid, hleft⟩ := ih howners
        (fun hmem => hdash (List.mem_cons_of_mem _ hmem))
        fun other hother => hvalue other (List.mem_cons_of_mem _ hother)
      have hletter : letter ≠ '-' := by
        rintro rfl
        exact hdash List.mem_cons_self
      have hpiece : registry.Admits (owner.piece ⟨.short, [letter]⟩ none) :=
        admits_piece h howner (by simp) (by simpa using hletter)
          (hvalue owner List.mem_cons_self).symm
      refine ⟨owner.piece ⟨.short, [letter]⟩ none :: pieces, ?_, ?_, ?_, hleft⟩
      · simpa using ⟨hpiece, hpieces⟩
      · rw [List.flatMap_cons, htokens]
        rfl
      · rw [occurrences_cons, hsaid]
        rfl

/-- A short token whose options take no values has the gist of its letters as separate tokens. -/
theorem gist_short_eq (h : registry.WellFormed) {letters : Text} (hne : letters ≠ [])
    (hdash : '-' ∉ letters)
    (hvalue : ∀ letter ∈ letters, ∀ option, registry.Declares option ⟨.short, [letter]⟩ →
      option.takesValue = false) (rest : List Text) :
    registry.gist ((Mention.short letters).token :: rest) =
      registry.gist (letters.map (fun letter => (Mention.short [letter]).token) ++ rest) := by
  have hshape : Shape.ofToken (Mention.short letters).token = .mention (.short letters) :=
    ofToken_short hne fun hhead => hdash (List.mem_of_mem_head? hhead)
  have hplain : ∀ {owners : List Declaration} {part : Text}, part ⊆ letters →
      registry.Owned owners (part.map fun letter => ⟨.short, [letter]⟩) →
        ∀ owner ∈ owners, owner.takesValue = false := by
    intro owners part hpart howners owner howner
    obtain ⟨form, hform, hdeclares⟩ := howners.declares howner
    obtain ⟨letter, hletter, rfl⟩ := List.mem_map.1 hform
    exact hvalue letter (hpart hletter) owner hdeclares
  rcases owned_or_firstRefused registry (Mention.short letters).forms with
    ⟨owners, howners⟩ | ⟨reason, hrefused⟩
  · have hletters := howners
    rw [forms_short hne] at hletters
    have hnone := hplain (List.Subset.refl _) hletters
    obtain ⟨pieces, hpieces, htokens, hsaid, hleft⟩ :=
      exists_pieces_of_letters h hletters hdash hnone
    have hpiece : registry.Admits (.option (Mention.short letters).token none
        ((Mention.short letters).said owners none)) :=
      .option hshape howners (asksValue_eq_false hnone).symm
    have hwhole := gist_of_admits h hpiece rest
    rw [Option.toList_none, List.nil_append] at hwhole
    rw [hwhole, ← htokens, gist_append_of_admits h hpieces hleft, hsaid]
    rfl
  · rw [gist_of_offends h hshape (.refused hrefused)]
    -- the letters in front of the one that is refused fit one by one
    obtain ⟨owners, front, form, behind, hforms, howners, hreason⟩ := hrefused
    rw [forms_short hne] at hforms
    obtain ⟨before, others, rfl, rfl, hothers⟩ := List.map_eq_append_iff.1 hforms
    obtain ⟨letter, after, rfl, rfl, rfl⟩ := List.map_eq_cons_iff.1 hothers
    have hbefore : before ⊆ before ++ letter :: after := List.subset_append_left _ _
    obtain ⟨pieces, hpieces, htokens, -, hleft⟩ := exists_pieces_of_letters h howners
      (fun hmem => hdash (hbefore hmem)) (hplain hbefore howners)
    have hletter : letter ≠ '-' := by
      rintro rfl
      exact hdash (by simp)
    have hshape' : Shape.ofToken (Mention.short [letter]).token = .mention (.short [letter]) :=
      ofToken_short (by simp) (by simpa using hletter)
    have hrefused : registry.FirstRefused (Mention.short [letter]).forms reason :=
      ⟨[], [], _, [], rfl, .nil, hreason⟩
    rw [List.map_append, List.map_cons, List.append_assoc, List.cons_append, ← htokens,
      gist_append_of_admits h hpieces hleft, gistBehind,
      gist_of_offends h hshape' (.refused hrefused), map_error]

/-- A short token in option position, none of whose letters is a dash or belongs to an option with a
    value, may be taken apart into one token per letter: the match is the same, or the reason why
    there is none. -/
theorem fit_eq_fit_letters {definition : Text} (hread : Registry.read definition = .ok registry)
    (hposition : registry.OptionPosition front) {letters : Text} (hne : letters ≠ [])
    (hdash : '-' ∉ letters)
    (hvalue : ∀ letter ∈ letters, ∀ option, registry.resolve ⟨.short, [letter]⟩ = .ok option →
      option.takesValue = false) (rest : List Text) :
    registry.fit (front ++ [(Mention.short letters).token] ++ rest) =
      registry.fit
        (front ++ letters.map (fun letter => (Mention.short [letter]).token) ++ rest) := by
  have h := wellFormed_of_read hread
  have hdeclared : ∀ letter ∈ letters, ∀ option, registry.Declares option ⟨.short, [letter]⟩ →
      option.takesValue = false := fun letter hletter option hdeclares =>
    hvalue letter hletter option (resolve_of_declares h.distinct hdeclares)
  rw [List.append_assoc, List.append_assoc]
  exact fit_append_of_gist_eq h hposition (gist_short_eq h hne hdash hdeclared rest)

/-- The second letter is refused, in one token with the first one or on its own. -/
theorem fit_eq_of_refused_letter : ∃ registry,
    Registry.read ['-', 'v', '|', '-', 'w', ' ', '-', '-', 'x'] = .ok registry ∧
      registry.OptionPosition [['a']] ∧
      registry.fit ([['a']] ++ [['-', 'w', 'x', 'v']] ++ [['b']]) =
        .error (.wrongForm ['-', 'x']) ∧
      registry.fit ([['a']] ++ [['-', 'w', 'x', 'v']] ++ [['b']]) =
        registry.fit ([['a']] ++ [['-', 'w'], ['-', 'x'], ['-', 'v']] ++ [['b']]) := by
  have h : Registry.read ['-', 'v', '|', '-', 'w', ' ', '-', '-', 'x'] =
    .ok ⟨[⟨⟨.short, ['v']⟩, [⟨⟨.short, ['w']⟩, false, none⟩], false, none⟩,
      ⟨⟨.long, ['x']⟩, [], false, none⟩], none⟩ := rfl
  have hposition : OptionPosition
      ⟨[⟨⟨.short, ['v']⟩, [⟨⟨.short, ['w']⟩, false, none⟩], false, none⟩,
        ⟨⟨.long, ['x']⟩, [], false, none⟩], none⟩ [['a']] :=
    .reached (.piece (.positional (by simp)) .done) (by simp)
  refine ⟨_, h, hposition, rfl, ?_⟩
  refine @fit_eq_fit_letters _ _ _ h hposition ['w', 'x', 'v'] (by simp) (by simp) ?_ _
  intro letter hletter option hresolve
  have hmem := ((resolve_eq_ok_iff (wellFormed_of_read h).distinct).1 hresolve).1
  simp only [List.mem_cons, List.not_mem_nil, or_false] at hmem
  rcases hmem with rfl | rfl <;> rfl

end CommandLine.Registry

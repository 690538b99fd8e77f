import CommandLine.Proofs.Registry.Letters
import CommandLine.Proofs.Text.Insertion

/-!
# A token more in a definition

The options that a token declares depend on its place in the brackets only in the number of their
group. So a row of tokens can be read behind another one, as soon as no group is open: its groups
are numbered on from there. With a token more between the two rows, the groups behind it are
numbered on from one group later.

Results:
* `Brackets.read_shift`, `Registry.readTokens_shift`: tokens are read in the same way where more
  groups were opened.
* `Registry.readTokens_append`: one row of tokens is read behind the other.
* `Registry.readTokens_insert`: a token with brackets of its own is read between two rows.
* `Registry.read_of_inserts`: what a definition declares with a token more.
-/

namespace CommandLine

namespace Declaration

/-! ## Options in other groups -/

/-- The option with other numbers of its group and those of its aliases. -/
def renumber (number : Nat → Nat) (option : Declaration) : Declaration :=
  option.withGroups (Option.map number)

@[simp] theorem names_renumber (number : Nat → Nat) (option : Declaration) :
    (option.renumber number).names = option.names := names_withGroups _ option

theorem flatMap_names_renumber (number : Nat → Nat) (options : List Declaration) :
    (options.map (renumber number)).flatMap names = options.flatMap names := by
  simp only [List.flatMap_map, names_renumber]

theorem Uniform.renumber_congr {option : Declaration} (huniform : option.Uniform)
    {number other : Nat → Nat}
    (h : ∀ found, option.group = some found → number found = other found) :
    option.renumber number = option.renumber other :=
  huniform.withGroups_congr (Option.map_congr h)

theorem renumber_id (option : Declaration) : option.renumber id = option := by
  rw [renumber, Option.map_id]
  exact congrArg (fun aliases => { option with aliases := aliases }) (List.map_id option.aliases)

theorem renumber_inGroup (number : Nat → Nat) (group : Option Nat) (option : Declaration) :
    (option.inGroup group).renumber number = option.inGroup (group.map number) :=
  withGroups_withGroups _ _ option

theorem ofLetters_inGroup (takesValue : Bool) (group other : Option Nat) (letters : Text) :
    ofLetters takesValue other letters =
      (ofLetters takesValue group letters).map (inGroup other) := by
  rcases List.eq_nil_or_concat' letters with rfl | ⟨front, last, rfl⟩
  · rfl
  · rw [ofLetters_append, ofLetters_append, List.map_append, List.map_map]
    rfl

theorem components_inGroup (other : Option Nat) (option : Declaration) :
    (option.inGroup other).components = option.components.map (inGroup other) := by
  unfold components
  show (if option.primary.isCombined then ofLetters option.takesValue other option.name
    else [option.inGroup other]) = _
  split
  · exact ofLetters_inGroup option.takesValue option.group other option.name
  · rfl

variable {group : Option Nat} {body : Text} {options : List Declaration}

/-- A body declares the same options in every group. -/
theorem ofBody_inGroup (h : ofBody group body = .ok options) (other : Option Nat) :
    ofBody other body = .ok (options.map (inGroup other)) := by
  obtain ⟨option, hspelled, -, hnames, rfl⟩ := ofBody_eq_ok_iff.1 h
  refine ofBody_eq_ok_iff.2 ⟨option.inGroup other, hspelled.inGroup other, rfl, ?_,
    (components_inGroup other option).symm⟩
  rwa [inGroup, names_withGroups]

/-- A body declares all options in its own group, with their aliases. -/
theorem map_inGroup_of_ofBody (h : ofBody group body = .ok options) :
    options.map (inGroup group) = options :=
  Except.ok.inj ((ofBody_inGroup h group).symm.trans h)

theorem group_eq_of_ofBody (h : ofBody group body = .ok options) {option : Declaration}
    (hoption : option ∈ options) :
    option.group = group ∧ ∀ other ∈ option.aliases, other.group = group := by
  rw [← map_inGroup_of_ofBody h] at hoption
  obtain ⟨declared, -, rfl⟩ := List.mem_map.1 hoption
  refine ⟨rfl, fun other hother => ?_⟩
  obtain ⟨old, -, rfl⟩ := List.mem_map.1 hother
  rfl

theorem map_renumber_of_ofBody (h : ofBody group body = .ok options) (number : Nat → Nat) :
    options.map (renumber number) = options.map (inGroup (group.map number)) := by
  conv_lhs => rw [← map_inGroup_of_ofBody h]
  rw [List.map_map]
  exact List.map_congr_left fun option _ => renumber_inGroup number group option

end Declaration

/-! ## Places in the brackets -/

namespace Brackets

/-- The place where so many more groups were opened. -/
def shift (offset : Nat) (place : Brackets) : Brackets :=
  { place with opened := offset + place.opened }

/-- The place behind a token whose brackets fit. -/
def behindToken (place : Brackets) (token : Text) : Brackets :=
  (place.entered (opens token)).left (closes token)

/-- The place behind a row of tokens whose brackets fit. -/
def behind (place : Brackets) (tokens : List Text) : Brackets := tokens.foldl behindToken place

theorem behind_nil (place : Brackets) : place.behind [] = place := rfl

theorem behind_cons (place : Brackets) (token : Text) (tokens : List Text) :
    place.behind (token :: tokens) = (place.behindToken token).behind tokens := rfl

theorem entered_shift (offset : Nat) (opens : Bool) (place : Brackets) :
    (place.shift offset).entered opens = (place.entered opens).shift offset := by
  cases opens <;> rfl

theorem left_shift (offset : Nat) (closes : Bool) (place : Brackets) :
    (place.shift offset).left closes = (place.left closes).shift offset := by
  cases closes <;> rfl

theorem group?_shift (offset : Nat) (place : Brackets) :
    (place.shift offset).group? = place.group?.map (offset + ·) := by
  unfold group? shift
  cases place.isOpen <;> rfl

theorem opened_le_entered (opens : Bool) (place : Brackets) :
    place.opened ≤ (place.entered opens).opened := by
  cases opens <;> simp [entered]

theorem opened_behindToken (place : Brackets) (token : Text) :
    (place.behindToken token).opened = (place.entered (opens token)).opened := by
  unfold behindToken left
  split <;> rfl

theorem opened_le_behind (place : Brackets) (tokens : List Text) :
    place.opened ≤ (place.behind tokens).opened := by
  induction tokens generalizing place with
  | nil => exact Nat.le_refl _
  | cons token tokens ih =>
    have hfirst := opened_le_entered (opens token) place
    rw [← opened_behindToken] at hfirst
    exact Nat.le_trans hfirst (ih (place.behindToken token))

/-- A token is read in the same way where more groups were opened. -/
theorem read_shift {place after : Brackets} {token : Text} {options : List Declaration}
    (h : place.read token = (.ok options, after)) (offset : Nat) :
    (place.shift offset).read token =
      (.ok (options.map (Declaration.renumber (offset + ·))), after.shift offset) := by
  obtain ⟨hopens, hcloses, hbody, rfl⟩ := read_eq_ok_iff.1 h
  refine read_eq_ok_iff.2 ⟨hopens, hcloses, ?_, ?_⟩
  · rw [entered_shift, group?_shift, Declaration.ofBody_inGroup hbody,
      Declaration.map_renumber_of_ofBody hbody]
  · rw [entered_shift, left_shift]

theorem behindToken_of_read {place after : Brackets} {token : Text} {options : List Declaration}
    (h : place.read token = (.ok options, after)) : after = place.behindToken token :=
  (read_eq_ok_iff.1 h).2.2.2

/-- The options of a token are in a group that is open by then. -/
theorem le_opened_of_read {place after : Brackets} {token : Text} {options : List Declaration}
    (h : place.read token = (.ok options, after)) {option : Declaration}
    (hoption : option ∈ options) {number : Nat} (hnumber : option.group = some number) :
    number ≤ (place.behindToken token).opened := by
  obtain ⟨-, -, hbody, -⟩ := read_eq_ok_iff.1 h
  rw [(Declaration.group_eq_of_ofBody hbody hoption).1, group?] at hnumber
  rw [opened_behindToken]
  split at hnumber
  · exact Nat.le_of_eq (Option.some.inj hnumber).symm
  · cases hnumber

end Brackets

namespace Registry

variable {place : Brackets} {seen : List Text} {front tokens : List Text}
  {options first : List Declaration}

/-! ## Rows of tokens -/

theorem isOpen_behind (h : BracketsFit place.isOpen tokens) :
    (place.behind tokens).isOpen = false := by
  induction tokens generalizing place with
  | nil => exact h
  | cons token tokens ih =>
    obtain ⟨-, -, hrest⟩ := h
    rw [← Brackets.entered_isOpen, ← Brackets.left_isOpen] at hrest
    exact ih hrest

/-- No token declares nothing, unless a group is still open. -/
theorem readTokens_nil_eq_ok_iff :
    readTokens place seen [] = .ok options ↔ place.isOpen = false ∧ options = [] := by
  rw [readTokens]
  split
  · next hopen => simp [hopen]
  · next hopen => simp [hopen, eq_comm]

/-- A row of tokens is read in the same way where more groups were opened and other names are
    taken. -/
theorem readTokens_shift (h : readTokens place seen tokens = .ok options) (offset : Nat)
    {seen' : List Text} (hnew : ∀ name ∈ options.flatMap Declaration.names, name ∉ seen') :
    readTokens (place.shift offset) seen' tokens =
      .ok (options.map (Declaration.renumber (offset + ·))) := by
  induction tokens generalizing place seen seen' options with
  | nil =>
    obtain ⟨hopen, rfl⟩ := readTokens_nil_eq_ok_iff.1 h
    exact readTokens_nil_eq_ok_iff.2 ⟨hopen, rfl⟩
  | cons token tokens ih =>
    obtain ⟨front, rest, after, hread, ⟨hnodup, -⟩, hrest, rfl⟩ := exists_of_readTokens_cons h
    rw [List.flatMap_append] at hnew
    -- the names of the later tokens are neither taken nor those of this token
    have hlater : ∀ name ∈ rest.flatMap Declaration.names,
        name ∉ seen' ++ front.flatMap Declaration.names := by
      intro name hname hmem
      rcases List.mem_append.1 hmem with hmem | hmem
      · exact hnew name (List.mem_append_right _ hname) hmem
      · exact (distinct_of_readTokens hrest).2 name hname (List.mem_append_right _ hmem)
    rw [readTokens_cons (Brackets.read_shift hread offset)
        (by rwa [Declaration.flatMap_names_renumber])
        (by
          rw [Declaration.flatMap_names_renumber]
          exact fun name hname => hnew name (List.mem_append_left _ hname)),
      Declaration.flatMap_names_renumber, ih hrest hlater, map_ok, List.map_append]

/-- One row of tokens is read behind the other. -/
theorem readTokens_append (h : readTokens place seen front = .ok first) (tokens : List Text) :
    readTokens place seen (front ++ tokens) =
      (readTokens (place.behind front) (seen ++ first.flatMap Declaration.names) tokens).map
        (first ++ ·) := by
  induction front generalizing place seen first with
  | nil =>
    obtain ⟨-, rfl⟩ := readTokens_nil_eq_ok_iff.1 h
    rw [List.flatMap_nil, List.append_nil, List.nil_append, Brackets.behind_nil]
    cases readTokens place seen tokens <;> rfl
  | cons token front ih =>
    obtain ⟨options, rest, after, hread, ⟨hnodup, hnew⟩, hrest, rfl⟩ :=
      exists_of_readTokens_cons h
    rw [List.cons_append, readTokens_cons hread hnodup hnew, ih hrest, Brackets.behind_cons,
      ← Brackets.behindToken_of_read hread, List.flatMap_append, List.append_assoc]
    cases readTokens (after.behind front) _ tokens <;> simp

/-- Two rows of tokens, of which the first one leaves no group open, are read one behind the
    other. -/
theorem exists_of_readTokens_append (h : readTokens place seen (front ++ tokens) = .ok options)
    (hfits : BracketsFit place.isOpen front) :
    ∃ first rest, readTokens place seen front = .ok first ∧
      readTokens (place.behind front) (seen ++ first.flatMap Declaration.names) tokens = .ok rest ∧
      options = first ++ rest := by
  induction front generalizing place seen options with
  | nil =>
    refine ⟨[], options, readTokens_nil_eq_ok_iff.2 ⟨hfits, rfl⟩, ?_, rfl⟩
    rwa [List.flatMap_nil, List.append_nil, Brackets.behind_nil]
  | cons token front ih =>
    obtain ⟨own, others, after, hread, ⟨hnodup, hnew⟩, hothers, rfl⟩ := exists_of_readTokens_cons h
    obtain ⟨-, -, hfits⟩ := hfits
    have hafter := Brackets.behindToken_of_read hread
    have hfits' : BracketsFit after.isOpen front := by
      rwa [hafter, Brackets.behindToken, Brackets.left_isOpen, Brackets.entered_isOpen]
    obtain ⟨first, rest, hfirst, hrest, rfl⟩ := ih hothers hfits'
    refine ⟨own ++ first, rest, ?_, ?_, (List.append_assoc _ _ _).symm⟩
    · rw [readTokens_cons hread hnodup hnew, hfirst, map_ok]
    · rw [Brackets.behind_cons, ← hafter, List.flatMap_append, ← List.append_assoc]
      exact hrest

/-- The groups of a row of tokens were opened in it or before it. -/
theorem le_opened_of_readTokens (h : readTokens place seen tokens = .ok options)
    {option : Declaration} (hoption : option ∈ options) {number : Nat}
    (hnumber : option.group = some number) : number ≤ (place.behind tokens).opened := by
  induction tokens generalizing place seen options with
  | nil =>
    obtain ⟨-, rfl⟩ := readTokens_nil_eq_ok_iff.1 h
    cases hoption
  | cons token tokens ih =>
    obtain ⟨own, others, after, hread, -, hothers, rfl⟩ := exists_of_readTokens_cons h
    obtain rfl := Brackets.behindToken_of_read hread
    rw [Brackets.behind_cons]
    rcases List.mem_append.1 hoption with hoption | hoption
    · exact Nat.le_trans (Brackets.le_opened_of_read hread hoption hnumber)
        (Brackets.opened_le_behind _ _)
    · exact ih hothers hoption

/-- The groups of a row of tokens in front of which none is open are opened in it. -/
theorem opened_lt_of_readTokens (h : readTokens place seen tokens = .ok options)
    (htokens : ∀ token ∈ tokens, Text.IsWord token) (hopen : place.isOpen = false)
    {option : Declaration} (hoption : option ∈ options) {number : Nat}
    (hnumber : option.group = some number) : place.opened < number := by
  have hnumbered : Numbered none place.opened options :=
    numbered_of_readTokens h htokens (by simp [hopen])
  exact (hnumbered.lt_or_eq option hoption number hnumber).resolve_right (by simp)

/-- The separator of a description is no token. -/
theorem ne_separator_of_readTokens (h : readTokens place seen tokens = .ok options) :
    ∀ token ∈ tokens, token ≠ ['-', '-'] := by
  induction tokens generalizing place seen options with
  | nil => simp
  | cons token tokens ih =>
    obtain ⟨own, others, after, hread, -, hothers, rfl⟩ := exists_of_readTokens_cons h
    refine List.forall_mem_cons.2 ⟨?_, ih hothers⟩
    rintro rfl
    obtain ⟨-, -, hbody, -⟩ := Brackets.read_eq_ok_iff.1 hread
    cases hbody

/-! ## A token between two rows -/

/-- A token with brackets of its own is read between two rows. -/
theorem readTokens_insert {token : Text} {option : Declaration} {rest : List Declaration}
    (hfront : readTokens place seen front = .ok first)
    (hback : readTokens (place.behind front) (seen ++ first.flatMap Declaration.names) tokens =
      .ok rest)
    (hopen : (place.behind front).isOpen = false)
    (htoken : Brackets.read {} token = (.ok [option], ⟨false, 1⟩)) (hnodup : option.names.Nodup)
    (hnew : ∀ name ∈ option.names,
      name ∉ seen ++ first.flatMap Declaration.names ∧ name ∉ rest.flatMap Declaration.names) :
    readTokens place seen (front ++ token :: tokens) =
      .ok (first ++ option.renumber ((place.behind front).opened + ·) ::
        rest.map (Declaration.renumber (1 + ·))) := by
  rw [readTokens_append hfront]
  generalize place.behind front = middle at *
  have hmiddle : middle = Brackets.shift middle.opened {} := by
    cases middle
    cases hopen
    rfl
  have hread : middle.read token = (.ok [option.renumber (middle.opened + ·)], middle.shift 1) := by
    have hshift := Brackets.read_shift htoken middle.opened
    rw [← hmiddle] at hshift
    rw [hshift, Brackets.shift, Brackets.shift, hopen, Nat.add_comm 1]
    rfl
  have hrest : ∀ name ∈ rest.flatMap Declaration.names,
      name ∉ seen ++ first.flatMap Declaration.names ++ option.names := by
    intro name hname hmem
    rcases List.mem_append.1 hmem with hmem | hmem
    · exact (distinct_of_readTokens hback).2 name hname hmem
    · exact (hnew name hmem).2 hname
  have hown : ([option.renumber (middle.opened + ·)] : List Declaration).flatMap
      Declaration.names = option.names := by simp
  rw [readTokens_cons hread (hown ▸ hnodup) (hown ▸ fun name hname => (hnew name hname).1), hown,
    readTokens_shift hback 1 hrest]
  rfl

/-- A definition of one token declares what the token declares. -/
theorem read_eq_of_isWord {token : Text} (htoken : Text.IsWord token) {alone : Registry}
    (h : Registry.read token = .ok alone) :
    Brackets.read {} token = (.ok alone.options, Brackets.behindToken {} token) := by
  rw [Registry.read, Text.separateDescription_word htoken] at h
  obtain ⟨options, hoptions, rfl⟩ := map_eq_ok_iff.1 h
  rw [Text.words_of_isWord htoken] at hoptions
  obtain ⟨own, others, after, hread, -, hothers, rfl⟩ := exists_of_readTokens_cons hoptions
  obtain ⟨-, rfl⟩ := readTokens_nil_eq_ok_iff.1 hothers
  rw [hread, Brackets.behindToken_of_read hread, List.append_nil]

theorem behindToken_bracketed (body : Text) :
    Brackets.behindToken {} (Brackets.bracketed true true body) = ⟨false, 1⟩ := by
  have hcloses : Brackets.closes (Brackets.bracketed true true body) = true := by
    simp [Brackets.closes, Brackets.unopened, Brackets.opens, Brackets.bracketed]
  rw [Brackets.behindToken, hcloses]
  rfl

/-! ## A token between two words -/

/-- The number of a group when one more group is opened behind the first ones. -/
def skipGroup (last number : Nat) : Nat := if number ≤ last then number else 1 + number

theorem skipGroup_injective (last : Nat) : (skipGroup last).Injective := by
  intro number other h
  unfold skipGroup at h
  split at h <;> split at h <;> omega

theorem renumber_skipGroup_of_le {option : Declaration} (huniform : option.Uniform) {last : Nat}
    (h : ∀ number, option.group = some number → number ≤ last) :
    option.renumber (skipGroup last) = option := by
  have hsame : option.renumber (skipGroup last) = option.renumber id :=
    huniform.renumber_congr fun number hnumber => if_pos (h number hnumber)
  rw [hsame, Declaration.renumber_id]

theorem renumber_skipGroup_of_lt {option : Declaration} (huniform : option.Uniform) {last : Nat}
    (h : ∀ number, option.group = some number → last < number) :
    option.renumber (skipGroup last) = option.renumber (1 + ·) :=
  huniform.renumber_congr fun number hnumber => if_neg (Nat.not_le.2 (h number hnumber))

/-- What a definition declares with a token more: the groups behind it have other numbers, and
    nothing else changes. -/
theorem read_of_inserts {definition extended before left right behind body : Text}
    {registry alone : Registry} {option : Declaration}
    (hread : Registry.read definition = .ok registry)
    (hword : Text.IsWord (Brackets.bracketed true true body))
    (halone : Registry.read (Brackets.bracketed true true body) = .ok alone)
    (hoption : alone.options = [option])
    (hnew : ∀ name ∈ option.names, name ∉ registry.names)
    (hinserts : Text.Inserts (Brackets.bracketed true true body) definition extended before left
      right behind)
    (hclosed : BracketsFit false (Text.words before)) :
    ∃ (number : Nat → Nat) (first rest : List Declaration) (opened : Nat), number.Injective ∧
      registry.options = first ++ rest ∧
      Registry.read extended = .ok ⟨first.map (Declaration.renumber number) ++
        option.renumber (opened + ·) :: rest.map (Declaration.renumber number),
        registry.description⟩ := by
  obtain ⟨options, hoptions, rfl⟩ := map_eq_ok_iff.1 hread
  have hdefinition := hinserts.words_definition
  rw [hdefinition] at hoptions
  have hdash := ne_separator_of_readTokens hoptions
  obtain ⟨hwords, hdescription⟩ := hinserts.words_extended hword (by simp [Brackets.bracketed])
    fun word hmem => hdash word (List.mem_append_left _ hmem)
  obtain ⟨first, rest, hfirst, hrest, rfl⟩ := exists_of_readTokens_append hoptions hclosed
  have hopen : (Brackets.behind {} (Text.words before)).isOpen = false := isOpen_behind hclosed
  have htoken := read_eq_of_isWord hword halone
  rw [hoption, behindToken_bracketed] at htoken
  have hnodup : option.names.Nodup :=
    ((wellFormed_of_read halone).options option (by simp [hoption])).distinct
  have hinsert := readTokens_insert hfirst hrest hopen htoken hnodup fun name hname => by
    have hfresh := hnew name hname
    rw [Registry.names, List.flatMap_append, List.mem_append, not_or] at hfresh
    exact ⟨by simpa using hfresh.1, hfresh.2⟩
  obtain ⟨opened, hopened⟩ : ∃ opened, (Brackets.behind {} (Text.words before)).opened = opened :=
    ⟨_, rfl⟩
  rw [← hwords, hopened] at hinsert
  -- one numbering serves both rows: it keeps the groups opened by then, and moves the others
  have huniform : ∀ option ∈ first ++ rest, option.Uniform := fun option hmem =>
    ((wellFormed_of_read hread).options option hmem).uniform
  have hleft : ∀ option ∈ first, option.renumber (skipGroup opened) = option := fun option hmem =>
    renumber_skipGroup_of_le (huniform option (List.mem_append_left _ hmem)) fun number hnumber =>
      hopened ▸ le_opened_of_readTokens hfirst hmem hnumber
  have hright : ∀ option ∈ rest, option.renumber (skipGroup opened) = option.renumber (1 + ·) :=
    fun option hmem =>
      renumber_skipGroup_of_lt (huniform option (List.mem_append_right _ hmem))
        fun number hnumber => hopened ▸ opened_lt_of_readTokens hrest
          (fun _ => Text.isWord_of_mem_words) hopen hmem hnumber
  refine ⟨skipGroup opened, first, rest, opened, skipGroup_injective opened, rfl, ?_⟩
  rw [List.map_congr_left hleft, List.map_congr_left hright, List.map_id']
  exact map_eq_ok_iff.2 ⟨_, hinsert, by rw [hdescription]⟩

end Registry

end CommandLine

import CommandLine.Registry.Render
import CommandLine.Proofs.Registry.Written

/-!
# Reading what was written

The definition that is written for a registry declares the same options again, unless one of them is
a letter that reads as syntax when it stands alone. In front of such a letter the options are read
back one by one, and with it the definition is refused or breaks off.

Results:
* `Registry.readTokens_renderTokens`: the tokens of faithful options are read back.
* `Registry.read_render_iff_faithful`: which definitions are read back, and what becomes of the
  others.
-/

namespace CommandLine.Registry

/-! ## Written tokens -/

theorem renderTokens_cons (previous : Option Nat) (option : Declaration)
    (options : List Declaration) :
    renderTokens previous (option :: options) =
      option.token previous (options.head?.bind Declaration.group) ::
        renderTokens option.group options := by
  simp [renderTokens, Declaration.token, Declaration.borders, Brackets.bracketed]

theorem length_renderTokens (previous : Option Nat) (options : List Declaration) :
    (renderTokens previous options).length = options.length := by
  induction options generalizing previous with
  | nil => rfl
  | cons option options ih => rw [renderTokens_cons, List.length_cons, ih, List.length_cons]

/-- An option whose text ends with a bracket is the last one of its group, or a bracket itself. -/
def Sealed : List Declaration → Prop
  | [] => True
  | option :: options =>
    (option.render.getLast? = some ']' →
      option.IsBracket ∨ option.borders (options.head?.bind Declaration.group) = true) ∧
      Sealed options

theorem Sealed.append {front rest : List Declaration} (hrest : Sealed rest)
    (hfront : ∀ option ∈ front, option.render.getLast? = some ']' → option.IsBracket) :
    Sealed (front ++ rest) := by
  induction front with
  | nil => exact hrest
  | cons option front ih =>
    exact ⟨fun hlast => .inl (hfront option (by simp) hlast),
      ih fun o ho => hfront o (by simp [ho])⟩

/-- An option behind a closed group opens a group of its own, if any. -/
theorem Numbered.head_ne {previous : Option Nat} {opened : Nat} {options : List Declaration}
    (h : Numbered previous opened options) (hprevious : previous ≠ some opened) :
    options.head?.bind Declaration.group ≠ some opened := by
  cases h with
  | nil => simp
  | mandatory hgroup => simp [hgroup]
  | opens hgroup => simp [hgroup]
  | continues => exact absurd rfl hprevious

theorem sealed_of_readTokens {place : Brackets} {seen tokens : List Text}
    {options : List Declaration} (h : readTokens place seen tokens = .ok options)
    (htokens : ∀ token ∈ tokens, Text.IsWord token) : Sealed options := by
  induction tokens generalizing place seen options with
  | nil =>
    rw [readTokens] at h
    split at h <;> cases h
    trivial
  | cons token tokens ih =>
    obtain ⟨front, rest, after, hread, -, hrest, rfl⟩ := exists_of_readTokens_cons h
    obtain ⟨opens, closes, body, rfl, hclose, hlast, hbody, rfl⟩ :=
      Brackets.exists_bracketed_of_read hread
    have htokens' : ∀ token ∈ tokens, Text.IsWord token := fun t ht => htokens t (by simp [ht])
    rcases Declaration.getLast?_render_of_ofBody hbody with hfront | ⟨option, rfl, hoption⟩
    · exact (ih hrest htokens').append hfront
    · refine ⟨fun hrender => .inr ?_, ih hrest htokens'⟩
      -- the body ends with a bracket, so the token had a closing one behind it
      have hcloses : closes = true := by
        by_contra hopen
        exact hlast (by simpa using hopen) (hoption hrender)
      subst hcloses
      have hgroup : option.group = some (place.entered opens).opened := by
        have hwell := Declaration.wellFormed_of_ofBody hbody
          (isBlank_eq_false_of_bracketed (htokens _ List.mem_cons_self)) option (by simp)
        rw [hwell.2, Brackets.group?, hclose rfl, if_pos rfl]
      have hnumbered : Numbered none ((place.entered opens).left true).opened rest :=
        numbered_of_readTokens hrest htokens' (by simp [Brackets.left])
      have hhead : rest.head?.bind Declaration.group ≠ some (place.entered opens).opened :=
        hnumbered.head_ne (by simp)
      simp [Declaration.borders, Declaration.isOptional, hgroup, Ne.symm hhead]

/-! ## Rows of tokens -/

/-- Every option of `front`, which stands in front of `rest`, is read back. -/
def AllFaithful (rest : List Declaration) : List Declaration → Prop
  | [] => True
  | option :: front =>
    option.Faithful ((front ++ rest).head?.bind Declaration.group) ∧ AllFaithful rest front

theorem Numbered.tail {previous : Option Nat} {opened : Nat} {option : Declaration}
    {options : List Declaration} (h : Numbered previous opened (option :: options))
    (hprevious : ∀ number, previous = some number → number ≤ opened) :
    ∃ opened', option.Opens previous opened opened' ∧ Numbered option.group opened' options ∧
      ∀ number, option.group = some number → number ≤ opened' := by
  cases h with
  | mandatory hgroup hrest =>
    exact ⟨opened, .inl ⟨hgroup, rfl⟩, hgroup ▸ hrest, by simp [hgroup]⟩
  | opens hgroup hrest =>
    refine ⟨opened + 1, .inr (.inl ⟨hgroup, fun heq => ?_, rfl⟩), hgroup ▸ hrest, by simp [hgroup]⟩
    have := hprevious (opened + 1) (by rw [← heq, hgroup])
    omega
  | continues hgroup hrest =>
    exact ⟨opened, .inr (.inr ⟨hgroup, hgroup, rfl⟩), hgroup ▸ hrest, by simp [hgroup]⟩

theorem readTokens_cons {place after : Brackets} {seen : List Text} {token : Text}
    {front : List Declaration} (hread : place.read token = (.ok front, after))
    (hnodup : (front.flatMap Declaration.names).Nodup)
    (hnew : ∀ name ∈ front.flatMap Declaration.names, name ∉ seen) (tokens : List Text) :
    readTokens place seen (token :: tokens) =
      (readTokens after (seen ++ front.flatMap Declaration.names) tokens).map (front ++ ·) := by
  rw [readTokens, hread]
  simp only [firstRepeated_eq_none_iff.2 ⟨hnodup, hnew⟩]

/-- The tokens of faithful options are read back, whatever follows them. -/
theorem readTokens_renderTokens {previous : Option Nat} {opened : Nat}
    {front rest : List Declaration} (hnumbered : Numbered previous opened (front ++ rest))
    (hprevious : ∀ number, previous = some number → number ≤ opened)
    (hwell : ∀ option ∈ front, option.WellFormed) (hfaithful : AllFaithful rest front)
    {seen : List Text} (hnodup : (front.flatMap Declaration.names).Nodup)
    (hnew : ∀ name ∈ front.flatMap Declaration.names, name ∉ seen) :
    ∃ place : Brackets, (rest = [] → place.isOpen = false) ∧ ∀ more : List Text,
      readTokens (Brackets.between previous ((front ++ rest).head?.bind Declaration.group) opened)
        seen ((renderTokens previous (front ++ rest)).take front.length ++ more) =
      (readTokens place (seen ++ front.flatMap Declaration.names) more).map (front ++ ·) := by
  induction front generalizing previous opened seen with
  | nil =>
    refine ⟨Brackets.between previous (rest.head?.bind Declaration.group) opened, ?_,
      fun more => ?_⟩
    · rintro rfl
      cases previous <;> simp [Brackets.between]
    · simp only [List.length_nil, List.take_zero, List.nil_append, List.flatMap_nil,
        List.append_nil]
      cases readTokens _ seen more <;> rfl
  | cons option front ih =>
    obtain ⟨hoption, hfaithful⟩ := hfaithful
    obtain ⟨opened', hopens, hnumbered, hgroup⟩ := hnumbered.tail hprevious
    rw [List.flatMap_cons, List.nodup_append] at hnodup
    obtain ⟨hnames, hnodup, hdisjoint⟩ := hnodup
    have hoptionNew : ∀ name ∈ [option].flatMap Declaration.names, name ∉ seen :=
      fun name hname => hnew name (by simp at hname ⊢; exact .inl hname)
    have hfrontNew : ∀ name ∈ front.flatMap Declaration.names,
        name ∉ seen ++ [option].flatMap Declaration.names := by
      intro name hname hmem
      rcases List.mem_append.1 hmem with hmem | hmem
      · exact hnew name (by rw [List.flatMap_cons]; exact List.mem_append_right _ hname) hmem
      · exact hdisjoint name (by simpa using hmem) name hname rfl
    have hcomponents := Declaration.components_of_wellFormed (hwell option (by simp))
    obtain ⟨place, hclosed, hplace⟩ := ih hnumbered hgroup
      (fun o ho => hwell o (by simp [ho])) hfaithful hnodup hfrontNew
    refine ⟨place, hclosed, fun more => ?_⟩
    have hread := Declaration.read_token hoption hcomponents hopens
    rw [List.cons_append, renderTokens_cons, List.length_cons, List.take_succ_cons,
      List.cons_append, List.head?_cons, Option.bind_some,
      readTokens_cons hread (by simpa using hnames) hoptionNew, hplace]
    rw [List.append_assoc]
    simp only [List.flatMap_cons, List.flatMap_nil, List.append_nil]
    cases readTokens place _ more <;> rfl

/-- The tokens of a registry, cut at one of its options. -/
theorem exists_renderTokens_eq (previous : Option Nat) (front : List Declaration)
    (option : Declaration) (rest : List Declaration) :
    ∃ previous', renderTokens previous (front ++ option :: rest) =
      (renderTokens previous (front ++ option :: rest)).take front.length ++
        option.token previous' (rest.head?.bind Declaration.group) ::
          renderTokens option.group rest := by
  induction front generalizing previous with
  | nil => exact ⟨previous, by simp [renderTokens_cons]⟩
  | cons first front ih =>
    obtain ⟨previous', heq⟩ := ih first.group
    refine ⟨previous', ?_⟩
    rw [List.cons_append, renderTokens_cons, List.length_cons, List.take_succ_cons,
      List.cons_append, ← heq]

/-- Words that are no separator: they are written for faithful options. -/
theorem mem_take_renderTokens {previous : Option Nat} {front rest : List Declaration}
    (hwell : ∀ option ∈ front, option.WellFormed) (hfaithful : AllFaithful rest front)
    {token : Text} (h : token ∈ (renderTokens previous (front ++ rest)).take front.length) :
    Text.IsWord token ∧ token ≠ ['-', '-'] := by
  induction front generalizing previous with
  | nil => simp at h
  | cons option front ih =>
    rw [List.cons_append, renderTokens_cons, List.length_cons, List.take_succ_cons,
      List.mem_cons] at h
    rcases h with rfl | h
    · exact ⟨Declaration.isWord_token (hwell option (by simp)) _ _,
        Declaration.token_ne_separator hfaithful.1.readable⟩
    · exact ih (fun o ho => hwell o (by simp [ho])) hfaithful.2 h

/-! ## Whole registries -/

/-- No letter of the registry reads as syntax when it stands alone. -/
def Faithful (registry : Registry) : Prop :=
  ∀ front option rest, registry.options = front ++ option :: rest →
    ¬ option.Misread (rest.head?.bind Declaration.group)

/-- The options in front of the first that is misread, or all of them. -/
theorem exists_allFaithful {options : List Declaration} (hsealed : Sealed options)
    (hwell : ∀ option ∈ options, option.WellFormed) :
    AllFaithful [] options ∨ ∃ front option rest, options = front ++ option :: rest ∧
      option.Misread (rest.head?.bind Declaration.group) ∧ AllFaithful (option :: rest) front := by
  induction options with
  | nil => exact .inl trivial
  | cons option options ih =>
    by_cases hmisread : option.Misread (options.head?.bind Declaration.group)
    · exact .inr ⟨[], option, options, rfl, hmisread, trivial⟩
    · have hoption := Declaration.faithful_of_not_misread (hwell option (by simp)) hsealed.1
        hmisread
      rcases ih hsealed.2 (fun o ho => hwell o (by simp [ho])) with
        hall | ⟨front, other, rest, rfl, hother, hfront⟩
      · exact .inl ⟨by simpa using hoption, hall⟩
      · exact .inr ⟨option :: front, other, rest, rfl, hother, hoption, hfront⟩

theorem sealed_of_read {definition : Text} {registry : Registry}
    (h : Registry.read definition = .ok registry) : Sealed registry.options := by
  obtain ⟨tokens, htokens, hread⟩ := exists_of_read h
  exact sealed_of_readTokens hread htokens

/-- A registry of faithful options is read back, without its description. -/
theorem read_render_of_allFaithful {registry : Registry} (h : registry.WellFormed)
    (hfaithful : AllFaithful [] registry.options) :
    Registry.read registry.render = .ok ⟨registry.options, none⟩ := by
  obtain ⟨options, description⟩ := registry
  obtain ⟨hwell, hdistinct, hnumbered⟩ := h
  dsimp only at hwell hdistinct hnumbered hfaithful ⊢
  have happend : Numbered none 0 (options ++ []) := by rwa [List.append_nil]
  have hnew : ∀ name ∈ options.flatMap Declaration.names, name ∉ ([] : List Text) := by simp
  obtain ⟨place, hclosed, hplace⟩ :=
    readTokens_renderTokens happend (by simp) hwell hfaithful hdistinct hnew
  have htake : (renderTokens none (options ++ [])).take options.length =
      renderTokens none options := by
    rw [List.append_nil, ← length_renderTokens none options, List.take_length]
  have hmem : ∀ token ∈ renderTokens none options, Text.IsWord token ∧ token ≠ ['-', '-'] := by
    rw [← htake]
    exact fun token htoken => mem_take_renderTokens hwell hfaithful htoken
  have hseparate : Text.separateDescription true (Text.joinWords (renderTokens none options)) =
      (Text.joinWords (renderTokens none options), none) := by
    rcases List.eq_nil_or_concat' (renderTokens none options) with hnil | ⟨front, last, hconcat⟩
    · rw [hnil]
      rfl
    · rw [hconcat] at hmem ⊢
      exact Text.separateDescription_joinWords (fun t ht => hmem t (by simp [ht]))
        (hmem last (by simp)).1
  have hread := hplace []
  rw [htake, List.append_nil, List.append_nil, readTokens, if_neg (by simp [hclosed rfl])] at hread
  simp only [Registry.read, Registry.render, hseparate,
    Text.words_joinWords fun t ht => (hmem t ht).1]
  have hplace : ({} : Brackets) =
      Brackets.between none (options.head?.bind Declaration.group) 0 := rfl
  rw [hplace, hread, map_ok, map_ok, List.append_nil]

/-- A registry with an option that is misread is not read back. -/
theorem read_render_of_misread {registry : Registry} (h : registry.WellFormed)
    {front rest : List Declaration} {option : Declaration}
    (hoptions : registry.options = front ++ option :: rest)
    (hmisread : option.Misread (rest.head?.bind Declaration.group))
    (hfaithful : AllFaithful (option :: rest) front) {again : Registry}
    (hagain : Registry.read registry.render = .ok again) :
    again.description.isSome = true ∧ again.options = front := by
  obtain ⟨options, description⟩ := registry
  obtain ⟨hwell, hdistinct, hnumbered⟩ := h
  dsimp only at hwell hdistinct hnumbered hoptions
  subst hoptions
  have hfront : ∀ o ∈ front, o.WellFormed := fun o ho => hwell o (by simp [ho])
  have hoption : option.WellFormed := hwell option (by simp)
  have hnodup : (front.flatMap Declaration.names).Nodup := by
    rw [Registry.names, List.flatMap_append] at hdistinct
    exact hdistinct.of_append_left
  have hnew : ∀ name ∈ front.flatMap Declaration.names, name ∉ ([] : List Text) := by simp
  obtain ⟨place, -, hplace⟩ :=
    readTokens_renderTokens hnumbered (by simp) hfront hfaithful hnodup hnew
  obtain ⟨previous, htokens⟩ := exists_renderTokens_eq none front option rest
  obtain ⟨before, description', hbefore⟩ : ∃ before description',
      Text.separateDescription true (Text.joinWords (renderTokens none (front ++ option :: rest))) =
        (before, description') := ⟨_, _, rfl⟩
  have hread : (readTokens {} [] (Text.words before)).map
      (fun options => (⟨options, description'⟩ : Registry)) = .ok again := by
    rw [← hagain, Registry.read, Registry.render, hbefore]
  rw [htokens] at hbefore
  rcases Text.words_separateDescription
    (fun token htoken => mem_take_renderTokens hfront hfaithful htoken)
    (Declaration.isWord_token hoption _ _) hbefore with ⟨hwords, hsome⟩ | ⟨others, hwords⟩
  · -- the option became the separator, so the tokens in front of it are all that is left
    have hfound := hplace []
    rw [List.append_nil, readTokens] at hfound
    rw [hwords] at hread
    obtain ⟨options, hoptions, rfl⟩ := map_eq_ok_iff.1 hread
    refine ⟨hsome, ?_⟩
    have heq := hfound.symm.trans hoptions
    split at heq
    · cases heq
    · simpa using heq.symm
  · -- the token of the option is refused
    obtain ⟨mistake, after, hrefused⟩ :=
      Declaration.read_token_of_misread hoption hmisread previous place
    have hfound := hplace
      (option.token previous (rest.head?.bind Declaration.group) :: others)
    rw [readTokens, hrefused] at hfound
    rw [hwords] at hread
    obtain ⟨options, hoptions, -⟩ := map_eq_ok_iff.1 hread
    cases hfound.symm.trans hoptions

theorem AllFaithful.not_misread {front rest after : List Declaration} {option : Declaration}
    (h : AllFaithful after (front ++ option :: rest)) :
    ¬ option.Misread ((rest ++ after).head?.bind Declaration.group) := by
  induction front with
  | nil => exact Declaration.not_misread_of_faithful h.1
  | cons first front ih => exact ih h.2

/-- The options of a registry are declared again by what is written for it if and only if no letter
    reads as syntax when it stands alone. Otherwise the definition is refused, or it breaks off in
    front of the first such letter and the rest has become a description. -/
theorem read_render_iff_faithful {definition : Text} {registry : Registry}
    (h : Registry.read definition = .ok registry) :
    (Registry.read registry.render = .ok ⟨registry.options, none⟩ ↔ registry.Faithful) ∧
      (¬ registry.Faithful → ∀ again, Registry.read registry.render = .ok again →
        again.description.isSome = true ∧
          ∃ lost ≠ [], registry.options = again.options ++ lost) := by
  have hwell := wellFormed_of_read h
  rcases exists_allFaithful (sealed_of_read h) hwell.options with
    hall | ⟨front, option, rest, hoptions, hmisread, hfront⟩
  · have hfaithful : registry.Faithful := by
      intro front option rest hoptions
      rw [hoptions] at hall
      simpa using hall.not_misread
    exact ⟨iff_of_true (read_render_of_allFaithful hwell hall) hfaithful,
      fun hnot => absurd hfaithful hnot⟩
  · have hlost : ∀ again, Registry.read registry.render = .ok again →
        again.description.isSome = true ∧
          ∃ lost ≠ [], registry.options = again.options ++ lost := by
      intro again hagain
      obtain ⟨hsome, heq⟩ := read_render_of_misread hwell hoptions hmisread hfront hagain
      exact ⟨hsome, option :: rest, by simp, by rw [hoptions, heq]⟩
    refine ⟨iff_of_false (fun hread => ?_) fun hfaithful => ?_, fun _ => hlost⟩
    · simpa using (hlost _ hread).1
    · exact hfaithful front option rest hoptions hmisread

/-- A bracket at the end of a group is read back. -/
theorem faithful_of_last_bracket :
    Registry.read ['[', '-', 'x', ']', ']'] =
        .ok ⟨[⟨⟨.short, ['x']⟩, [], false, some 1⟩, ⟨⟨.short, [']']⟩, [], false, some 1⟩], none⟩ ∧
      Registry.Faithful
        ⟨[⟨⟨.short, ['x']⟩, [], false, some 1⟩, ⟨⟨.short, [']']⟩, [], false, some 1⟩], none⟩ := by
  have h : Registry.read ['[', '-', 'x', ']', ']'] =
    .ok ⟨[⟨⟨.short, ['x']⟩, [], false, some 1⟩, ⟨⟨.short, [']']⟩, [], false, some 1⟩], none⟩ := rfl
  exact ⟨h, (read_render_iff_faithful h).1.1 rfl⟩

/-- A dash in the combined form `-a-` is written as `--`, which is a long form without a name. -/
theorem read_render_dash : ∃ registry, Registry.read ['-', 'a', '-'] = .ok registry ∧
    registry.render = ['-', 'a', ' ', '-', '-'] ∧
    Registry.read registry.render = .error .emptyName :=
  ⟨_, rfl, rfl, rfl⟩

end CommandLine.Registry

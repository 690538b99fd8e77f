import Mathlib.Data.List.Find
import Mathlib.Order.Interval.Finset.Nat
import CommandLine.Proofs.Registry.Consistent
import CommandLine.Proofs.Registry.Insertion

/-!
# One definition behind another

A space parts the words of two definitions, and unless the first one ends in the word `--`, no
separator turns up where they meet. So the tokens of the second definition are read behind those of
the first one: with its groups numbered on from there, up to the first name that is taken. A mistake
in a token of the first definition is met before anything of the second one is read.

Results:
* `Text.separateDescription_append_space`: the separator of the second definition is found.
* `Registry.readTokens_shift_of_taken`: which name is reported behind other tokens.
* `Registry.readTokens_append_of_error`: a mistake in a token is not made good by later tokens.
* `Registry.groupCount_of_readTokens`: how many groups a row of tokens opens.
* `Registry.read_append_space`: what two definitions declare, one behind the other.
-/

namespace CommandLine

/-! ## The separator -/

namespace Text

variable {boundary : Bool} {text before behind : Text}

/-- A separator that ends inside the first text is one of the first text. -/
theorem Separated.of_append {more : Text} (h : Separated boundary (text ++ more) before behind)
    (hle : before.length + 3 ≤ text.length) : ∃ rest, Separated boundary text before rest := by
  have hseparator : before ++ ['-', '-', ' '] <+: text ++ more := by
    rw [h.1]
    exact ⟨behind, by simp⟩
  have hinside : before ++ ['-', '-', ' '] <+: text := by
    apply List.prefix_of_prefix_length_le hseparator (List.prefix_append text more)
    rw [List.length_append]
    exact hle
  obtain ⟨rest, hrest⟩ := hinside
  exact ⟨rest, by rw [← hrest]; simp, h.2⟩

/-- What is put behind a text with a separator belongs to the description. -/
theorem Divided.append {description : Text} (h : Divided boundary text before (some description))
    (more : Text) : Divided boundary (text ++ more) before (some (description ++ more)) := by
  cases h with
  | separated hseparated hfirst =>
    refine .separated ⟨?_, hseparated.2⟩ ?_
    · rw [hseparated.1]
      simp
    · intro before' behind' hearlier
      -- an earlier separator would end inside the text
      by_contra hlt
      have hlength := congrArg List.length hseparated.1
      simp only [List.length_append, List.length_cons] at hlength
      obtain ⟨rest, hrest⟩ := hearlier.of_append (by omega)
      exact hlt (hfirst before' rest hrest)

/-- A text with a separator is divided there, whatever is put behind it. -/
theorem fst_separateDescription_append {description : Text}
    (h : (separateDescription boundary text).2 = some description) (more : Text) :
    (separateDescription boundary (text ++ more)).1 = (separateDescription boundary text).1 := by
  have hdivided := divided_separateDescription boundary text
  rw [h] at hdivided
  exact ((hdivided.append more).unique (divided_separateDescription boundary (text ++ more))).1

theorem isWord_dashes : IsWord ['-', '-'] := ⟨by simp, by simp⟩

/-- Unless the first text ends in the word `--`, no separator turns up where two texts meet. -/
theorem Separated.length_le {more : Text} (h : Separated true (text ++ ' ' :: more) before behind)
    (hnone : ∀ before behind, ¬ Separated true text before behind)
    (hlast : (words text).getLast? ≠ some ['-', '-']) : text.length ≤ before.length := by
  by_contra hlt
  have hshort : text.length < before.length + 3 := by
    by_contra hinside
    obtain ⟨rest, hrest⟩ := h.of_append (by omega)
    exact hnone before rest hrest
  -- so the text ends in one or two characters of the separator
  have hprefix : before <+: text := by
    apply List.prefix_of_prefix_length_le _ (List.prefix_append text (' ' :: more)) (by omega)
    rw [h.1]
    exact List.prefix_append _ _
  obtain ⟨tail, rfl⟩ := hprefix
  obtain ⟨heq, hblank⟩ := h
  rw [List.append_assoc] at heq
  have htail := List.append_cancel_left heq
  rw [List.length_append] at hlt hshort
  match tail, htail with
  | [], _ => simp at hlt
  | [_], htail => simp at htail
  | [_, _], htail =>
    simp only [List.cons_append, List.nil_append, List.cons.injEq] at htail
    obtain ⟨rfl, rfl, -⟩ := htail
    rw [words_append before (.inl hblank), words_of_isWord isWord_dashes] at hlast
    simp at hlast
  | _ :: _ :: _ :: _, _ =>
    simp only [List.length_cons] at hshort
    omega

theorem Divided.eq_of_none (h : Divided boundary text before none) :
    before = text ∧ ∀ before behind, ¬ Separated boundary text before behind := by
  cases h with
  | whole hnone => exact ⟨rfl, hnone⟩

/-- The first text is in front of the separator as a whole. -/
theorem Divided.length_le {more : Text} {description : Option Text}
    (h : Divided true (text ++ ' ' :: more) before description)
    (hnone : ∀ before behind, ¬ Separated true text before behind)
    (hlast : (words text).getLast? ≠ some ['-', '-']) : text.length ≤ before.length := by
  cases h with
  | separated hseparated _ => exact hseparated.length_le hnone hlast
  | whole _ =>
    rw [List.length_append]
    omega

/-- The separator of two texts that are parted by a space is that of the second one. -/
theorem separateDescription_append_space (hnone : (separateDescription true text).2 = none)
    (hlast : (words text).getLast? ≠ some ['-', '-']) (more : Text) :
    separateDescription true (text ++ ' ' :: more) =
      (text ++ ' ' :: (separateDescription true more).1, (separateDescription true more).2) := by
  have hwhole := divided_separateDescription true text
  rw [hnone] at hwhole
  have hle := (divided_separateDescription true (text ++ ' ' :: more)).length_le
    hwhole.eq_of_none.2 hlast
  rw [separateDescription_append_of_le text hle, separateDescription_blank isBlank_space]

theorem fst_separateDescription_eq (h : (separateDescription true text).2 = none) :
    (separateDescription true text).1 = text := by
  have hwhole := divided_separateDescription true text
  rw [h] at hwhole
  exact hwhole.eq_of_none.1

theorem words_append_space (text more : Text) :
    words (text ++ ' ' :: more) = words text ++ words more := by
  rw [words_append text (.inr (by simp)), words_blank isBlank_space]

end Text

namespace Registry

/-! ## Rows of tokens -/

variable {place : Brackets} {seen taken : List Text} {front tokens : List Text}
  {options : List Declaration}

/-- Of different names, the first repeated one is the first that is taken. -/
theorem firstRepeated_eq_find? {found : List Text} (hfound : found.Nodup) :
    firstRepeated taken found = found.find? (· ∈ taken) := by
  induction found generalizing taken with
  | nil => rfl
  | cons name found ih =>
    obtain ⟨hname, hfound⟩ := List.nodup_cons.1 hfound
    rw [firstRepeated]
    split
    · next htaken => rw [List.find?_cons_of_pos (by simpa using htaken)]
    · next htaken =>
      rw [List.find?_cons_of_neg (by simpa using htaken), ih hfound]
      apply List.find?_congr
      intro other hother
      have hne : other ≠ name := by
        rintro rfl
        exact hname hother
      simp [hne]

/-- A row of tokens is read up to the first name that is taken. -/
theorem readTokens_shift_of_taken (h : readTokens place seen tokens = .ok options) (offset : Nat)
    {name : Text} (hname : (options.flatMap Declaration.names).find? (· ∈ taken) = some name) :
    readTokens (place.shift offset) taken tokens = .error (.duplicateName name) := by
  induction tokens generalizing place seen taken options with
  | nil =>
    obtain ⟨-, rfl⟩ := readTokens_nil_eq_ok_iff.1 h
    cases hname
  | cons token tokens ih =>
    obtain ⟨own, others, after, hread, ⟨hnodup, -⟩, hothers, rfl⟩ := exists_of_readTokens_cons h
    have hshift := Brackets.read_shift hread offset
    rw [List.flatMap_append, List.find?_append] at hname
    cases hown : (own.flatMap Declaration.names).find? (· ∈ taken) with
    | some found =>
      rw [hown] at hname
      obtain rfl : found = name := Option.some.inj hname
      rw [readTokens, hshift]
      simp only [Declaration.flatMap_names_renumber, firstRepeated_eq_find? hnodup, hown]
    | none =>
      rw [hown, Option.none_or] at hname
      have hnew : ∀ other ∈ own.flatMap Declaration.names, other ∉ taken := by
        intro other hother
        simpa using List.find?_eq_none.1 hown other hother
      rw [readTokens_cons hshift (by rwa [Declaration.flatMap_names_renumber])
        (by rwa [Declaration.flatMap_names_renumber]), ih hothers, map_error]
      rw [← hname, Declaration.flatMap_names_renumber]
      apply List.find?_congr
      intro other hother
      have hfresh : other ∉ own.flatMap Declaration.names := fun hmem =>
        (distinct_of_readTokens hothers).2 other hother (List.mem_append_right _ hmem)
      simp only [List.mem_append, hfresh, or_false]

/-- A mistake in a token is not made good by later tokens. -/
theorem readTokens_append_of_error {mistake : Mistake}
    (h : readTokens place seen front = .error mistake) (hne : mistake ≠ .unclosedOptional)
    (tokens : List Text) : readTokens place seen (front ++ tokens) = .error mistake := by
  induction front generalizing place seen with
  | nil =>
    rw [readTokens] at h
    split at h
    · cases h
      exact absurd rfl hne
    · cases h
  | cons token front ih =>
    rw [List.cons_append, readTokens]
    rw [readTokens] at h
    split at h
    · exact h
    · next options after hread =>
      dsimp only at h ⊢
      split at h
      · exact h
      · rw [map_eq_error_iff] at h ⊢
        exact ih h

/-! ## The number of groups -/

/-- Every group that is opened in a row of tokens holds an option. -/
theorem mem_groupNumbers_of_readTokens (h : readTokens place seen tokens = .ok options)
    {number : Nat} (hlt : place.opened < number) (hle : number ≤ (place.behind tokens).opened) :
    number ∈ groupNumbers options := by
  induction tokens generalizing place seen options with
  | nil =>
    rw [Brackets.behind_nil] at hle
    omega
  | cons token tokens ih =>
    obtain ⟨own, others, after, hread, -, hothers, rfl⟩ := exists_of_readTokens_cons h
    obtain ⟨-, -, hbody, -⟩ := Brackets.read_eq_ok_iff.1 hread
    obtain rfl := Brackets.behindToken_of_read hread
    rw [Brackets.behind_cons] at hle
    unfold groupNumbers
    rw [List.filterMap_append, List.mem_append]
    by_cases hlater : (place.behindToken token).opened < number
    · exact .inr (ih hothers hlater hle)
    · -- the group is opened by the token itself
      left
      rw [Brackets.opened_behindToken] at hlater
      have hopens : Brackets.opens token = true := by
        by_contra hopens
        rw [Bool.not_eq_true] at hopens
        rw [hopens] at hlater
        exact hlater hlt
      rw [hopens] at hlater hbody
      have hnumber : place.opened + 1 = number := by
        have hentered : ¬ place.opened + 1 < number := hlater
        omega
      obtain ⟨option, rest, rfl⟩ := List.exists_cons_of_ne_nil (Declaration.ne_nil_of_ofBody hbody)
      have hgroup := (Declaration.group_eq_of_ofBody hbody List.mem_cons_self).1
      rw [List.mem_filterMap]
      exact ⟨option, List.mem_cons_self, hgroup.trans (congrArg some hnumber)⟩

/-- How many groups the options are in. -/
def groupCount (options : List Declaration) : Nat := (groupNumbers options).toFinset.card

/-- A row of tokens that starts outside of all groups opens as many groups as it declares. -/
theorem groupCount_of_readTokens (h : readTokens {} seen tokens = .ok options)
    (htokens : ∀ token ∈ tokens, Text.IsWord token) :
    groupCount options = (Brackets.behind {} tokens).opened := by
  have hgroups : (groupNumbers options).toFinset =
      Finset.Icc 1 (Brackets.behind {} tokens).opened := by
    ext number
    rw [List.mem_toFinset, Finset.mem_Icc]
    constructor
    · intro hnumber
      obtain ⟨option, hoption, hgroup⟩ := mem_groupNumbers.1 hnumber
      exact ⟨opened_lt_of_readTokens h htokens rfl hoption hgroup,
        le_opened_of_readTokens h hoption hgroup⟩
    · rintro ⟨hlt, hle⟩
      exact mem_groupNumbers_of_readTokens h hlt hle
  unfold groupCount
  rw [hgroups, Nat.card_Icc, Nat.add_sub_cancel]

/-! ## Two definitions -/

/-- Behind a row of tokens no group is open, and those of the row have been opened. -/
theorem behind_eq_shift (h : readTokens {} seen tokens = .ok options)
    (htokens : ∀ token ∈ tokens, Text.IsWord token) :
    Brackets.behind {} tokens = Brackets.shift (groupCount options) {} := by
  have hopen : (Brackets.behind {} tokens).isOpen = false :=
    isOpen_behind (grammatical_of_readTokens h).1
  have hcount := groupCount_of_readTokens h htokens
  generalize Brackets.behind {} tokens = place at hopen hcount ⊢
  obtain ⟨isOpen, opened⟩ := place
  obtain rfl : isOpen = false := hopen
  obtain rfl : groupCount options = opened := hcount
  rfl

theorem read_append_space_of_ok {definition other : Text} {first second : Registry}
    (hfirst : Registry.read definition = .ok first) (hdescription : first.description = none)
    (hsecond : Registry.read other = .ok second) :
    Registry.read (definition ++ ' ' :: other) =
      match second.names.find? (· ∈ first.names) with
      | none => .ok ⟨first.options ++
          second.options.map (Declaration.renumber (groupCount first.options + ·)), second.description⟩
      | some name => .error (.duplicateName name) := by
  obtain ⟨options, hoptions, rfl⟩ := map_eq_ok_iff.1 hfirst
  obtain ⟨others, hothers, rfl⟩ := map_eq_ok_iff.1 hsecond
  rw [Text.fst_separateDescription_eq hdescription] at hoptions
  have hwords : ∀ token ∈ Text.words definition, Text.IsWord token :=
    fun token => Text.isWord_of_mem_words
  have hlast : (Text.words definition).getLast? ≠ some ['-', '-'] := by
    intro hlast
    exact ne_separator_of_readTokens hoptions _ (List.mem_of_getLast? hlast) rfl
  unfold Registry.read
  rw [Text.separateDescription_append_space hdescription hlast]
  dsimp only [Registry.names]
  rw [Text.words_append_space, readTokens_append hoptions, List.nil_append,
    behind_eq_shift hoptions hwords]
  split
  · next hfree =>
    have hnew : ∀ name ∈ others.flatMap Declaration.names,
        name ∉ options.flatMap Declaration.names := by
      intro name hname htaken
      exact List.find?_eq_none.1 hfree name hname (decide_eq_true htaken)
    rw [readTokens_shift hothers _ hnew]
    rfl
  · next name htaken =>
    rw [readTokens_shift_of_taken hothers _ htaken]
    rfl

theorem read_append_space_of_error {definition : Text} {mistake : Mistake}
    (h : Registry.read definition = .error mistake) (hne : mistake ≠ .unclosedOptional)
    (hlast : (Text.words definition).getLast? ≠ some ['-', '-']) (other : Text) :
    Registry.read (definition ++ ' ' :: other) = .error mistake := by
  unfold Registry.read at h ⊢
  rw [map_eq_error_iff] at h ⊢
  cases hdescription : (Text.separateDescription true definition).2 with
  | some description => rwa [Text.fst_separateDescription_append hdescription]
  | none =>
    rw [Text.fst_separateDescription_eq hdescription] at h
    rw [Text.separateDescription_append_space hdescription hlast, Text.words_append_space]
    exact readTokens_append_of_error h hne _

/-- What two definitions declare, one behind the other: the options of both, with the groups of the
    second one numbered on, unless a name of the second one is taken. A mistake of the first one is
    the mistake of both. -/
theorem read_append_space (definition other : Text) :
    (∀ first second, Registry.read definition = .ok first → first.description = none →
      Registry.read other = .ok second →
      Registry.read (definition ++ ' ' :: other) =
        match second.names.find? (· ∈ first.names) with
        | none => .ok ⟨first.options ++
            second.options.map (Declaration.renumber (groupCount first.options + ·)), second.description⟩
        | some name => .error (.duplicateName name)) ∧
    ∀ mistake, Registry.read definition = .error mistake → mistake ≠ .unclosedOptional →
      (Text.words definition).getLast? ≠ some ['-', '-'] →
      Registry.read (definition ++ ' ' :: other) = .error mistake :=
  ⟨fun _ _ hfirst hdescription hsecond => read_append_space_of_ok hfirst hdescription hsecond,
    fun _ h hne hlast => read_append_space_of_error h hne hlast other⟩

/-- Behind `[a] -b`, the group of `[--c|-d] e -- t` is the second one, and `x --c|-b` is refused for
    the name of an alias. In `--\tx` the word `--` is no separator, and it is refused as a token
    even if a separator follows later. -/
theorem read_append_space_of_seams :
    Registry.read (['[', 'a', ']', ' ', '-', 'b'] ++ ' ' :: ['[', '-', '-', 'c', '|', '-', 'd', ']',
        ' ', 'e', ' ', '-', '-', ' ', 't']) =
      .ok ⟨[⟨⟨.argument, ['a']⟩, [], false, some 1⟩, ⟨⟨.short, ['b']⟩, [], false, none⟩,
        ⟨⟨.long, ['c']⟩, [⟨⟨.short, ['d']⟩, false, some 2⟩], false, some 2⟩,
        ⟨⟨.argument, ['e']⟩, [], false, none⟩], some ['t']⟩ ∧
    Registry.read (['[', 'a', ']', ' ', '-', 'b'] ++ ' ' :: ['x', ' ', '-', '-', 'c', '|', '-', 'b']) =
      .error (.duplicateName ['b']) ∧
    Registry.read (['-', '-', '\t', 'x'] ++ ' ' :: ['y', ' ', '-', '-', ' ', 'z']) =
      .error .emptyName := by
  have hfirst : Registry.read ['[', 'a', ']', ' ', '-', 'b'] =
      .ok ⟨[⟨⟨.argument, ['a']⟩, [], false, some 1⟩, ⟨⟨.short, ['b']⟩, [], false, none⟩], none⟩ :=
    rfl
  refine ⟨?_, ?_, ?_⟩
  · rw [(read_append_space _ _).1 _ _ hfirst rfl rfl]
    rfl
  · rw [(read_append_space _ _).1 _ _ hfirst rfl rfl]
    rfl
  · exact (read_append_space _ _).2 _ rfl (by decide) (by decide)

end Registry

end CommandLine

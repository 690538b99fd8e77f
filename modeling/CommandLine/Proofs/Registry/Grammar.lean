import CommandLine.Proofs.Definition.Grammar
import CommandLine.Proofs.Registry.RoundTrip

/-!
# The grammar of definitions

A definition is divided at its first separator, and the part in front of it is a row of tokens. They
are grammatical if their brackets open and close one group at a time, if each of them spells an
option, and if no name is declared twice. The definition is read if and only if this is the case,
and its description is what stands behind the separator.

Results:
* `Text.divided_separateDescription`, `Text.Divided.unique`: where a definition is divided.
* `Registry.exists_readTokens_iff`: which rows of tokens are read at a place in the brackets.
* `Registry.reads_iff_grammatical`: which definitions are read.
-/

namespace CommandLine

/-! ## The first separator -/

namespace Text

/-- Whether the place behind this text follows white space; an empty text leaves it where it was. -/
def behindBlank (boundary : Bool) (before : Text) : Bool :=
  match before.getLast? with
  | some c => isBlank c
  | none => boundary

/-- A separator stands between the two parts of the text, at its start or after white space;
    `boundary` tells whether the text itself follows some, as at the very start. -/
def Separated (boundary : Bool) (text before behind : Text) : Prop :=
  text = before ++ '-' :: '-' :: ' ' :: behind ∧ behindBlank boundary before = true

/-- The text is divided at its first separator, or it has none. -/
inductive Divided (boundary : Bool) (text : Text) : Text → Option Text → Prop
  | separated {before behind : Text} (h : Separated boundary text before behind)
      (hfirst : ∀ before' behind', Separated boundary text before' behind' →
        before.length ≤ before'.length) :
      Divided boundary text before (some behind)
  | whole (h : ∀ before behind, ¬ Separated boundary text before behind) :
      Divided boundary text text none

theorem behindBlank_cons (boundary : Bool) (c : Char) (before : Text) :
    behindBlank boundary (c :: before) = behindBlank (isBlank c) before := by
  unfold behindBlank
  rw [List.getLast?_cons]
  cases before.getLast? <;> rfl

theorem separated_cons_iff {boundary : Bool} {c : Char} {text before behind : Text} :
    Separated boundary (c :: text) before behind ↔
      before = [] ∧ boundary = true ∧ c :: text = '-' :: '-' :: ' ' :: behind ∨
        ∃ rest, before = c :: rest ∧ Separated (isBlank c) text rest behind := by
  unfold Separated
  cases before with
  | nil => simp [behindBlank, and_comm]
  | cons d rest =>
    rw [behindBlank_cons]
    constructor
    · rintro ⟨htext, hblank⟩
      obtain ⟨rfl, hrest⟩ := List.cons.inj htext
      exact .inr ⟨rest, rfl, hrest, hblank⟩
    · rintro (⟨hnil, -⟩ | ⟨_, hcons, htext, hblank⟩)
      · cases hnil
      · obtain ⟨rfl, rfl⟩ := List.cons.inj hcons
        exact ⟨congrArg (d :: ·) htext, hblank⟩

/-- The separator is looked for from the start. -/
theorem divided_separateDescription (boundary : Bool) (text : Text) :
    Divided boundary text (separateDescription boundary text).1
      (separateDescription boundary text).2 := by
  induction text generalizing boundary with
  | nil =>
    refine .whole fun before behind h => ?_
    simp [Separated] at h
  | cons c text ih =>
    unfold separateDescription
    split
    · next hprefix =>
      simp only [Bool.and_eq_true, List.isPrefixOf_iff_prefix] at hprefix
      obtain ⟨hboundary, behind, hbehind⟩ := hprefix
      have htext : c :: text = '-' :: '-' :: ' ' :: behind := hbehind.symm
      obtain ⟨rfl, rfl⟩ := List.cons.inj htext
      exact .separated ⟨rfl, hboundary⟩ fun _ _ _ => Nat.zero_le _
    · next hprefix =>
      have hlater : ∀ before behind, Separated boundary (c :: text) before behind →
          ∃ rest, before = c :: rest ∧ Separated (isBlank c) text rest behind := by
        intro before behind h
        refine (separated_cons_iff.1 h).resolve_left ?_
        rintro ⟨-, hboundary, htext⟩
        apply hprefix
        rw [htext, hboundary]
        rfl
      have hrest := ih (isBlank c)
      generalize separateDescription (isBlank c) text = found at hrest ⊢
      obtain ⟨before, description⟩ := found
      dsimp only at hrest ⊢
      cases hrest with
      | separated h hfirst =>
        refine .separated (separated_cons_iff.2 (.inr ⟨_, rfl, h⟩)) fun before' behind' h' => ?_
        obtain ⟨rest, rfl, hrest⟩ := hlater before' behind' h'
        have hle := hfirst rest behind' hrest
        simp only [List.length_cons]
        omega
      | whole h =>
        refine .whole fun before' behind' h' => ?_
        obtain ⟨rest, rfl, hrest⟩ := hlater before' behind' h'
        exact h rest behind' hrest

/-- A text is divided in one way. -/
theorem Divided.unique {boundary : Bool} {text before before' : Text}
    {description description' : Option Text} (h : Divided boundary text before description)
    (h' : Divided boundary text before' description') :
    before' = before ∧ description' = description := by
  cases h with
  | @separated before behind h hfirst =>
    cases h' with
    | @separated before' behind' h' hfirst' =>
      have hle := hfirst _ _ h'
      have hle' := hfirst' _ _ h
      have happend := h'.1.symm.trans h.1
      obtain ⟨rfl, hbehind⟩ := List.append_inj happend (by omega)
      simp only [List.cons.injEq, true_and] at hbehind
      exact ⟨rfl, congrArg some hbehind⟩
    | whole h' => exact absurd h (h' _ _)
  | whole h =>
    cases h' with
    | separated h' => exact absurd h' (h _ _)
    | whole => exact ⟨rfl, rfl⟩

end Text

namespace Registry

/-! ## Rows of tokens -/

/-- The brackets of the tokens open a group only while none is open and close one only while one is,
    and no group is open at the end. -/
def BracketsFit : Bool → List Text → Prop
  | isOpen, [] => isOpen = false
  | isOpen, token :: tokens =>
    (Brackets.opens token = true → isOpen = false) ∧
      (Brackets.closes token = true → (isOpen || Brackets.opens token) = true) ∧
      BracketsFit ((isOpen || Brackets.opens token) && !Brackets.closes token) tokens

/-- The tokens without their brackets spell the options. -/
def Spelled (tokens : List Text) (options : List Declaration) : Prop :=
  List.Forall₂ (fun token option => Declaration.SpelledBy (Brackets.body token) option)
    tokens options

/-- The tokens are the options of a definition. -/
structure Grammatical (tokens : List Text) : Prop where
  brackets : BracketsFit false tokens
  spelled : ∃ options, Spelled tokens options ∧
    (options.flatMap Declaration.spelledNames).Nodup

variable {place : Brackets} {seen tokens : List Text}

theorem grammatical_of_readTokens {options : List Declaration}
    (h : readTokens place seen tokens = .ok options) :
    BracketsFit place.isOpen tokens ∧ ∃ declared, Spelled tokens declared ∧
      declared.flatMap Declaration.spelledNames = options.flatMap Declaration.names := by
  induction tokens generalizing place seen options with
  | nil =>
    unfold readTokens at h
    split at h
    · cases h
    · next hopen =>
      cases h
      exact ⟨by simpa [BracketsFit] using hopen, [], .nil, rfl⟩
  | cons token tokens ih =>
    obtain ⟨front, rest, after, hread, -, hrest, rfl⟩ := exists_of_readTokens_cons h
    obtain ⟨hopens, hcloses, hbody, rfl⟩ := Brackets.read_eq_ok_iff.1 hread
    obtain ⟨option, hspelled, -, -, rfl⟩ := Declaration.ofBody_eq_ok_iff.1 hbody
    obtain ⟨hfits, declared, hdeclared, hnames⟩ := ih hrest
    rw [Brackets.left_isOpen, Brackets.entered_isOpen] at hfits
    refine ⟨⟨hopens, hcloses, hfits⟩, option :: declared, .cons hspelled hdeclared, ?_⟩
    rw [List.flatMap_cons, List.flatMap_append, hspelled.flatMap_names_components, hnames]

theorem readTokens_of_grammatical {declared : List Declaration}
    (hfits : BracketsFit place.isOpen tokens) (hspelled : Spelled tokens declared)
    (hnodup : (declared.flatMap Declaration.spelledNames).Nodup)
    (hnew : ∀ name ∈ declared.flatMap Declaration.spelledNames, name ∉ seen) :
    ∃ options, readTokens place seen tokens = .ok options := by
  induction hspelled generalizing place seen with
  | nil =>
    have hopen : ¬ place.isOpen = true := by simpa [BracketsFit] using hfits
    exact ⟨[], by rw [readTokens, if_neg hopen]⟩
  | @cons token option tokens declared hoption _ ih =>
    obtain ⟨hopens, hcloses, hfits⟩ := hfits
    rw [List.flatMap_cons, List.nodup_append] at hnodup
    obtain ⟨hnames, hnodup, hdisjoint⟩ := hnodup
    rw [List.flatMap_cons] at hnew
    -- the group is none of the grammar's business
    let grouped : Declaration := option.inGroup (place.entered (Brackets.opens token)).group?
    have hgrouped : grouped.SpelledBy (Brackets.body token) := hoption.inGroup _
    have hspelled : grouped.components.flatMap Declaration.names = option.spelledNames :=
      hgrouped.flatMap_names_components.trans (option.spelledNames_inGroup _)
    have hbody : Declaration.ofBody (place.entered (Brackets.opens token)).group?
        (Brackets.body token) = .ok grouped.components := by
      refine Declaration.ofBody_eq_ok_iff.2 ⟨grouped, hgrouped, rfl, ?_, rfl⟩
      refine hgrouped.nodup_names ?_
      rwa [option.spelledNames_inGroup]
    have hread := Brackets.read_eq_ok_iff.2 ⟨hopens, hcloses, hbody, rfl⟩
    rw [← Brackets.entered_isOpen, ← Brackets.left_isOpen] at hfits
    have hlater : ∀ name ∈ declared.flatMap Declaration.spelledNames,
        name ∉ seen ++ option.spelledNames := by
      intro name hname hmem
      rcases List.mem_append.1 hmem with hmem | hmem
      · exact hnew name (List.mem_append_right _ hname) hmem
      · exact hdisjoint name hmem name hname rfl
    obtain ⟨options, hoptions⟩ := ih hfits hnodup hlater
    refine ⟨grouped.components ++ options, ?_⟩
    rw [readTokens_cons hread (hspelled ▸ hnames)
      (fun name hname => hnew name (List.mem_append_left _ (hspelled ▸ hname))), hspelled,
      hoptions, map_ok]

/-- Which rows of tokens are read at a place in the brackets, where these names are taken. -/
theorem exists_readTokens_iff : (∃ options, readTokens place seen tokens = .ok options) ↔
    BracketsFit place.isOpen tokens ∧ ∃ declared, Spelled tokens declared ∧
      (declared.flatMap Declaration.spelledNames).Nodup ∧
      ∀ name ∈ declared.flatMap Declaration.spelledNames, name ∉ seen := by
  constructor
  · rintro ⟨options, h⟩
    obtain ⟨hfits, declared, hspelled, hnames⟩ := grammatical_of_readTokens h
    have hdistinct := distinct_of_readTokens h
    rw [← hnames] at hdistinct
    exact ⟨hfits, declared, hspelled, hdistinct⟩
  · rintro ⟨hfits, declared, hspelled, hnodup, hnew⟩
    exact readTokens_of_grammatical hfits hspelled hnodup hnew

/-! ## Definitions -/

/-- A definition is divided in one way; it is read if and only if the tokens in front of its first
    separator are grammatical, and then its description is what stands behind the separator. -/
theorem reads_iff_grammatical (definition : Text) :
    ∃ part description, Text.Divided true definition part description ∧
      (∀ part' description', Text.Divided true definition part' description' →
        part' = part ∧ description' = description) ∧
      ((∃ registry, Registry.read definition = .ok registry) ↔ Grammatical (Text.words part)) ∧
      ∀ registry, Registry.read definition = .ok registry → registry.description = description := by
  have hdivided := Text.divided_separateDescription true definition
  refine ⟨_, _, hdivided, fun _ _ => hdivided.unique, ⟨?_, ?_⟩, ?_⟩
  · rintro ⟨registry, hread⟩
    obtain ⟨options, hoptions, -⟩ := map_eq_ok_iff.1 hread
    obtain ⟨hfits, declared, hspelled, hnodup, -⟩ := exists_readTokens_iff.1 ⟨options, hoptions⟩
    exact ⟨hfits, declared, hspelled, hnodup⟩
  · rintro ⟨hfits, declared, hspelled, hnodup⟩
    obtain ⟨options, hoptions⟩ : ∃ options, readTokens {} [] (Text.words _) = .ok options :=
      exists_readTokens_iff.2 ⟨hfits, declared, hspelled, hnodup, by simp⟩
    exact ⟨⟨options, _⟩, map_eq_ok_iff.2 ⟨options, hoptions, rfl⟩⟩
  · intro registry hread
    obtain ⟨options, -, rfl⟩ := map_eq_ok_iff.1 hread
    rfl

/-- An alias may be a single letter, as in `--x|-y`. On the other hand it is not enough that every
    segment spells a form and every alias is long: `--x|--y=` is refused because the marks differ,
    and `-a -a` because the names do not. -/
theorem alias_need_not_be_long :
    (Text.Divided true ['-', '-', 'x', '|', '-', 'y'] ['-', '-', 'x', '|', '-', 'y'] none ∧
      Text.words ['-', '-', 'x', '|', '-', 'y'] = [['-', '-', 'x', '|', '-', 'y']] ∧
      Text.splitAt '|' (Brackets.body ['-', '-', 'x', '|', '-', 'y']) =
        (['-', '-', 'x'], [['-', 'y']]) ∧
      (∀ form takesValue, Segment.Spells ['-', 'y'] form takesValue → form.kind ≠ .long) ∧
      ∃ registry, Registry.read ['-', '-', 'x', '|', '-', 'y'] = .ok registry) ∧
    (Text.Divided true ['-', '-', 'x', '|', '-', '-', 'y', '=']
        ['-', '-', 'x', '|', '-', '-', 'y', '='] none ∧
      Text.words ['-', '-', 'x', '|', '-', '-', 'y', '='] =
        [['-', '-', 'x', '|', '-', '-', 'y', '=']] ∧
      BracketsFit false [['-', '-', 'x', '|', '-', '-', 'y', '=']] ∧
      Text.splitAt '|' (Brackets.body ['-', '-', 'x', '|', '-', '-', 'y', '=']) =
        (['-', '-', 'x'], [['-', '-', 'y', '=']]) ∧
      Segment.Spells ['-', '-', 'x'] ⟨.long, ['x']⟩ false ∧
      Segment.Spells ['-', '-', 'y', '='] ⟨.long, ['y']⟩ true ∧
      Registry.read ['-', '-', 'x', '|', '-', '-', 'y', '='] =
        .error (.aliasValueMismatch ['y'])) ∧
    Text.Divided true ['-', 'a', ' ', '-', 'a'] ['-', 'a', ' ', '-', 'a'] none ∧
      Text.words ['-', 'a', ' ', '-', 'a'] = [['-', 'a'], ['-', 'a']] ∧
      BracketsFit false [['-', 'a'], ['-', 'a']] ∧
      Text.splitAt '|' (Brackets.body ['-', 'a']) = (['-', 'a'], []) ∧
      Segment.Spells ['-', 'a'] ⟨.short, ['a']⟩ false ∧
      Registry.read ['-', 'a', ' ', '-', 'a'] = .error (.duplicateName ['a']) := by
  have hshort : ∀ form takesValue,
      Segment.Spells ['-', 'y'] form takesValue → form.kind ≠ .long := by
    intro form takesValue h
    have hread := Segment.read_eq_ok_iff.2 h
    cases hread
    simp
  refine ⟨⟨?_, rfl, rfl, hshort, _, rfl⟩, ⟨?_, rfl, ?_, rfl, ?_, ?_, rfl⟩,
    ?_, rfl, ?_, rfl, ?_, rfl⟩
  · exact Text.divided_separateDescription true ['-', '-', 'x', '|', '-', 'y']
  · exact Text.divided_separateDescription true ['-', '-', 'x', '|', '-', '-', 'y', '=']
  · exact ⟨by decide, by decide, rfl⟩
  · exact Segment.read_eq_ok_iff.1 rfl
  · exact Segment.read_eq_ok_iff.1 rfl
  · exact Text.divided_separateDescription true ['-', 'a', ' ', '-', 'a']
  · exact ⟨by decide, by decide, by decide, by decide, rfl⟩
  · exact Segment.read_eq_ok_iff.1 rfl

end Registry

end CommandLine

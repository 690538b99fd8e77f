import Mathlib.Algebra.Ring.Int.Defs
import CommandLine.Proofs.Registry.Grammar

/-!
# Balanced brackets

All brackets at the start of a token open, and all brackets at its end close. A definition is
balanced if its tokens never open a second group inside another one, never close a group that is not
open, and leave no group open. Only one bracket is taken off each end of a token, so balance is more
than what is asked of a definition: it is refused if its brackets do not fit, but a second bracket
at the end of a token becomes part of a name.

Results:
* `Registry.balanced_steps_iff`: balance as a condition on one token after the other.
* `Declaration.SpelledBy.exists_head?_name`, `Declaration.SpelledBy.exists_getLast?_name`: what
  becomes of a bracket that is left at the start or at the end of a token.
* `Registry.balanced_iff_of_read`: which of the definitions that are read are balanced.
-/

namespace CommandLine

/-! ## Rows of brackets -/

/-- How often the text starts with a character. -/
def Text.run (c : Char) (text : Text) : Nat := (text.takeWhile (· = c)).length

namespace Brackets

/-- The number of brackets at the start of a token. -/
def leading (token : Text) : Nat := Text.run '[' token

/-- The number of brackets at the end of a token. -/
def trailing (token : Text) : Nat := Text.run ']' token.reverse

/-- The brackets of a row of tokens, as steps of the depth. -/
def steps (tokens : List Text) : List Int :=
  tokens.flatMap fun token =>
    List.replicate (leading token) 1 ++ List.replicate (trailing token) (-1)

/-- From this depth on, the steps lead to no depth but zero and one. -/
def Within (depth : Int) (row : List Int) : Prop :=
  ∀ front, front <+: row → 0 ≤ depth + front.sum ∧ depth + front.sum ≤ 1

/-- From this depth on, the steps lead to no depth but zero and one, and to zero in the end. -/
structure Balanced (depth : Int) (row : List Int) : Prop where
  within : Within depth row
  settled : depth + row.sum = 0

theorem within_append_iff {depth : Int} {row rest : List Int} :
    Within depth (row ++ rest) ↔ Within depth row ∧ Within (depth + row.sum) rest := by
  constructor
  · intro h
    refine ⟨fun front hfront => h front (hfront.trans (List.prefix_append row rest)), ?_⟩
    intro front hfront
    have hwhole := h (row ++ front) ((List.prefix_append_right_inj row).2 hfront)
    rwa [List.sum_append, ← Int.add_assoc] at hwhole
  · rintro ⟨hrow, hrest⟩ front hfront
    rcases List.prefix_or_prefix_of_prefix hfront (List.prefix_append row rest) with h | ⟨back, rfl⟩
    · exact hrow front h
    · rw [List.sum_append, ← Int.add_assoc]
      exact hrest back ((List.prefix_append_right_inj row).1 hfront)

theorem balanced_append_iff {depth : Int} {row rest : List Int} :
    Balanced depth (row ++ rest) ↔ Within depth row ∧ Balanced (depth + row.sum) rest := by
  constructor
  · rintro ⟨hwithin, hsettled⟩
    obtain ⟨hrow, hrest⟩ := within_append_iff.1 hwithin
    rw [List.sum_append, ← Int.add_assoc] at hsettled
    exact ⟨hrow, hrest, hsettled⟩
  · rintro ⟨hrow, hrest, hsettled⟩
    refine ⟨within_append_iff.2 ⟨hrow, hrest⟩, ?_⟩
    rwa [List.sum_append, ← Int.add_assoc]

/-- Along equal steps the depth is known after each of them. -/
theorem within_replicate_iff {depth step : Int} {n : Nat} :
    Within depth (List.replicate n step) ↔
      ∀ k : Nat, k ≤ n → 0 ≤ depth + k * step ∧ depth + k * step ≤ 1 := by
  constructor
  · intro h k hk
    have hfront : List.replicate k step <+: List.replicate n step :=
      List.prefix_replicate_iff.2 ⟨by simpa using hk, by simp⟩
    simpa using h _ hfront
  · intro h front hfront
    obtain ⟨hlength, hreplicate⟩ := List.prefix_replicate_iff.1 hfront
    rw [hreplicate]
    simpa using h front.length hlength

/-! ## One token after the other -/

/-- The brackets of a token come first: those that open, then those that close. -/
theorem balanced_steps_cons_iff {depth : Int} (hdepth : 0 ≤ depth) {token : Text}
    {tokens : List Text} :
    Balanced depth (steps (token :: tokens)) ↔
      depth + leading token ≤ 1 ∧ trailing token ≤ depth + leading token ∧
        Balanced (depth + leading token - trailing token) (steps tokens) := by
  have hsteps : steps (token :: tokens) = List.replicate (leading token) 1 ++
      (List.replicate (trailing token) (-1) ++ steps tokens) := by
    rw [← List.append_assoc]
    rfl
  rw [hsteps, balanced_append_iff, balanced_append_iff, within_replicate_iff, within_replicate_iff]
  simp only [List.sum_replicate_int, Int.mul_neg, Int.mul_one, ← Int.sub_eq_add_neg]
  constructor
  · rintro ⟨hopening, hclosing, hrest⟩
    have hlast := hopening (leading token) (Nat.le_refl _)
    have hlast' := hclosing (trailing token) (Nat.le_refl _)
    exact ⟨by omega, by omega, hrest⟩
  · rintro ⟨hopening, hclosing, hrest⟩
    refine ⟨fun k hk => ?_, fun k hk => ?_, hrest⟩
    · omega
    · omega

theorem leading_pos_iff {token : Text} : 0 < leading token ↔ opens token = true := by
  rw [opens_iff]
  cases token with
  | nil => simp [leading, Text.run]
  | cons c cs =>
    by_cases hc : c = '[' <;> simp [leading, Text.run, hc]

theorem trailing_pos_iff {token : Text} : 0 < trailing token ↔ closes token = true := by
  rw [closes_iff, ← List.head?_reverse]
  cases hreverse : token.reverse with
  | nil => simp [trailing, Text.run, hreverse]
  | cons c cs =>
    by_cases hc : c = ']' <;> simp [trailing, Text.run, hreverse, hc]

/-- The depth stays where it may be just if the brackets of the token fit and none is doubled. -/
theorem depth_token_iff {isOpen : Bool} {token : Text} :
    isOpen.toInt + leading token ≤ 1 ∧ trailing token ≤ isOpen.toInt + leading token ↔
      (opens token = true → isOpen = false) ∧
        (closes token = true → (isOpen || opens token) = true) ∧
        leading token ≤ 1 ∧ trailing token ≤ 1 := by
  rw [← leading_pos_iff, ← trailing_pos_iff, Bool.or_eq_true, ← leading_pos_iff]
  cases isOpen with
  | true =>
    have hdepth : true.toInt = 1 := rfl
    rw [hdepth]
    simp only [Bool.true_eq_false, imp_false, true_or, implies_true, true_and]
    omega
  | false =>
    have hdepth : false.toInt = 0 := rfl
    rw [hdepth]
    simp only [Bool.false_eq_true, implies_true, false_or, true_and]
    omega

theorem depth_behind_token {isOpen : Bool} {token : Text}
    (hopening : isOpen.toInt + leading token ≤ 1)
    (hclosing : trailing token ≤ isOpen.toInt + leading token) :
    isOpen.toInt + leading token - trailing token =
      ((isOpen || opens token) && !closes token).toInt := by
  have hleading : 0 < leading token ↔ opens token = true := leading_pos_iff
  have htrailing : 0 < trailing token ↔ closes token = true := trailing_pos_iff
  unfold Bool.toInt at *
  cases isOpen <;> cases hopens : opens token <;> cases hcloses : closes token <;>
    simp [hopens, hcloses] at * <;> omega

end Brackets

namespace Registry

/-- Tokens are balanced if and only if their brackets fit and none has two of them at one end. -/
theorem balanced_steps_iff {isOpen : Bool} {tokens : List Text} :
    Brackets.Balanced isOpen.toInt (Brackets.steps tokens) ↔ BracketsFit isOpen tokens ∧
      ∀ token ∈ tokens, Brackets.leading token ≤ 1 ∧ Brackets.trailing token ≤ 1 := by
  induction tokens generalizing isOpen with
  | nil =>
    constructor
    · rintro ⟨-, hsettled⟩
      cases isOpen with
      | true => cases hsettled
      | false => exact ⟨rfl, by simp⟩
    · rintro ⟨hclosed, -⟩
      have hclosed : isOpen = false := hclosed
      subst hclosed
      refine ⟨fun front hfront => ?_, rfl⟩
      rw [List.prefix_nil.1 hfront]
      decide
  | cons token tokens ih =>
    rw [Brackets.balanced_steps_cons_iff (by cases isOpen <;> decide), BracketsFit,
      List.forall_mem_cons]
    constructor
    · rintro ⟨hopening, hclosing, hrest⟩
      obtain ⟨hopens, hcloses, hends⟩ := Brackets.depth_token_iff.1 ⟨hopening, hclosing⟩
      rw [Brackets.depth_behind_token hopening hclosing, ih] at hrest
      exact ⟨⟨hopens, hcloses, hrest.1⟩, hends, hrest.2⟩
    · rintro ⟨⟨hopens, hcloses, hrest⟩, hends, hothers⟩
      obtain ⟨hopening, hclosing⟩ := Brackets.depth_token_iff.2 ⟨hopens, hcloses, hends⟩
      rw [Brackets.depth_behind_token hopening hclosing, ih]
      exact ⟨hopening, hclosing, hrest, hothers⟩

end Registry

/-! ## Doubled brackets -/

namespace Text

theorem two_le_run_iff {c : Char} {text : Text} :
    2 ≤ run c text ↔ ∃ rest, text = c :: c :: rest := by
  constructor
  · intro h
    match text with
    | [] => simp [run] at h
    | [d] => by_cases hd : d = c <;> simp [run, hd] at h
    | d :: e :: rest =>
      by_cases hd : d = c
      · by_cases he : e = c
        · exact ⟨rest, by rw [hd, he]⟩
        · simp [run, hd, he] at h
      · simp [run, hd] at h
  · rintro ⟨rest, rfl⟩
    simp [run]

theorem head?_fst_splitAt {separator c : Char} {text : Text} (hc : c ≠ separator)
    (h : text.head? = some c) : (splitAt separator text).1.head? = some c := by
  obtain ⟨rest, rfl⟩ := List.head?_eq_some_iff.1 h
  simp [splitAt, hc]

/-- The last piece ends like the text. -/
theorem exists_getLast?_splitAt {separator c : Char} {text : Text} (hc : c ≠ separator)
    (h : text.getLast? = some c) :
    ∃ piece ∈ (splitAt separator text).1 :: (splitAt separator text).2,
      piece.getLast? = some c := by
  induction text with
  | nil => cases h
  | cons d text ih =>
    by_cases htext : text = []
    · subst htext
      obtain rfl : d = c := by simpa using h
      exact ⟨[d], by simp [splitAt, hc], rfl⟩
    · rw [List.getLast?_cons_of_ne_nil htext] at h
      obtain ⟨piece, hpiece, hlast⟩ := ih h
      by_cases hd : d = separator
      · simp only [splitAt, if_pos hd]
        exact ⟨piece, List.mem_cons_of_mem _ hpiece, hlast⟩
      · simp only [splitAt, if_neg hd]
        rcases List.mem_cons.1 hpiece with rfl | hpiece
        · refine ⟨_, List.mem_cons_self, ?_⟩
          rw [List.getLast?_cons, hlast]
          rfl
        · exact ⟨piece, List.mem_cons_of_mem _ hpiece, hlast⟩

end Text

namespace Brackets

variable {token : Text}

/-- One bracket is taken off the start of a token, and the next one stays. -/
theorem head?_body (h : 2 ≤ leading token) : (body token).head? = some '[' := by
  obtain ⟨rest, rfl⟩ := Text.two_le_run_iff.1 h
  have hunopened : unopened ('[' :: '[' :: rest) = '[' :: rest := rfl
  unfold body
  rw [hunopened]
  split
  · next hcloses =>
    rw [closes_iff] at hcloses
    cases rest with
    | nil => simp at hcloses
    | cons c rest => rfl
  · rfl

/-- One bracket is taken off the end of a token, and the one before it stays. -/
theorem getLast?_body (h : 2 ≤ trailing token) : (body token).getLast? = some ']' := by
  obtain ⟨rest, hreverse⟩ := Text.two_le_run_iff.1 h
  have htoken : token = rest.reverse ++ [']', ']'] := by
    rw [← List.reverse_reverse token, hreverse]
    simp
  have hcloses : closes token = true := by
    rw [closes_iff, htoken]
    simp
  have hunopened : ∃ front, unopened token = front ++ [']', ']'] := by
    unfold unopened
    split
    · next hopens =>
      rw [opens_iff, htoken] at hopens
      obtain ⟨front, hfront⟩ : ∃ front, rest.reverse = '[' :: front := by
        cases hrest : rest.reverse with
        | nil => simp [hrest] at hopens
        | cons c front => simp_all
      exact ⟨front, by rw [htoken, hfront]; rfl⟩
    · exact ⟨_, htoken⟩
  obtain ⟨front, hfront⟩ := hunopened
  unfold body
  rw [if_pos hcloses, hfront]
  simp

end Brackets

namespace Segment.Spells

variable {text : Text} {form : Form} {takesValue : Bool}

/-- Only the bare name of an argument starts with a bracket. -/
theorem eq_bare (h : Spells text form takesValue) (hhead : text.head? = some '[') :
    form = ⟨.argument, text⟩ := by
  cases h with
  | long => simp at hhead
  | short => simp at hhead
  | angled => simp at hhead
  | bare => rfl

theorem getLast?_of_marked (front : Text) {name : Text} (hname : name ≠ [])
    (h : (front ++ (name ++ valueMark takesValue)).getLast? = some ']') :
    name.getLast? = some ']' := by
  cases takesValue with
  | true =>
    rw [valueMark_true, ← List.append_assoc, List.getLast?_concat] at h
    cases h
  | false => rwa [valueMark_false, List.append_nil, List.getLast?_append_of_ne_nil _ hname] at h

/-- What ends with a bracket is a name that does. -/
theorem getLast?_name (h : Spells text form takesValue) (hlast : text.getLast? = some ']') :
    form.name.getLast? = some ']' := by
  cases h with
  | @long name _ hname => exact getLast?_of_marked ['-', '-'] hname hlast
  | @short name _ hname => exact getLast?_of_marked ['-'] hname hlast
  | @angled name =>
    rw [← List.cons_append, List.getLast?_concat] at hlast
    cases hlast
  | bare => exact hlast

end Segment.Spells

namespace Declaration.SpelledBy

variable {body : Text} {option : Declaration}

theorem exists_head?_name (h : option.SpelledBy body) (hhead : body.head? = some '[') :
    ∃ name ∈ option.spelledNames, name.head? = some '[' := by
  have hfirst := Text.head?_fst_splitAt (by decide : '[' ≠ '|') hhead
  have hprimary := h.primary.eq_bare hfirst
  refine ⟨option.name, ?_, ?_⟩
  · rw [spelledNames, if_neg (by simp [hprimary])]
    exact name_mem_names option
  · rw [Declaration.name, hprimary]
    exact hfirst

theorem exists_getLast?_name (h : option.SpelledBy body) (hlast : body.getLast? = some ']') :
    ∃ name ∈ option.spelledNames, name.getLast? = some ']' := by
  obtain ⟨piece, hpiece, hlast⟩ :=
    Text.exists_getLast?_splitAt (by decide : ']' ≠ '|') hlast
  rcases List.mem_cons.1 hpiece with rfl | hpiece
  · have hname := h.primary.getLast?_name hlast
    unfold spelledNames
    split
    · -- the bracket is the last letter
      refine ⟨[']'], List.mem_append_left _ ?_, rfl⟩
      exact List.mem_map.2 ⟨']', List.mem_of_getLast? hname, rfl⟩
    · exact ⟨option.name, name_mem_names option, hname⟩
  · obtain ⟨hothers, htexts⟩ := forall₂_spells_iff.1 h.aliases
    rw [htexts] at hpiece
    obtain ⟨other, hother, rfl⟩ := List.mem_map.1 hpiece
    refine ⟨other.form.name, ?_,
      (Segment.spells_written (hothers other hother).1).getLast?_name hlast⟩
    have hmem : other.form.name ∈ (option.aliases.map Alias.form).map Form.name :=
      List.mem_map_of_mem (List.mem_map_of_mem hother)
    unfold spelledNames
    split
    · exact List.mem_append_right _ hmem
    · exact List.mem_cons_of_mem _ hmem

end Declaration.SpelledBy

namespace Registry

theorem Spelled.exists_spelledBy {tokens : List Text} {declared : List Declaration}
    (h : Spelled tokens declared) {token : Text} (htoken : token ∈ tokens) :
    ∃ option ∈ declared, option.SpelledBy (Brackets.body token) := by
  induction h with
  | nil => cases htoken
  | @cons first option _ _ hspelled _ ih =>
    rcases List.mem_cons.1 htoken with rfl | htoken
    · exact ⟨option, List.mem_cons_self, hspelled⟩
    · obtain ⟨other, hother, hspelled⟩ := ih htoken
      exact ⟨other, List.mem_cons_of_mem _ hother, hspelled⟩

/-- What the tokens of a definition spell has the names of its registry. -/
theorem exists_spelled_of_read {definition part : Text} {description : Option Text}
    {registry : Registry} (hdivided : Text.Divided true definition part description)
    (hread : Registry.read definition = .ok registry) :
    BracketsFit false (Text.words part) ∧ ∃ declared, Spelled (Text.words part) declared ∧
      declared.flatMap Declaration.spelledNames = registry.names := by
  obtain ⟨options, hoptions, rfl⟩ := map_eq_ok_iff.1 hread
  have hpart := ((Text.divided_separateDescription true definition).unique hdivided).1
  rw [hpart]
  exact grammatical_of_readTokens hoptions

/-- A definition that is read is balanced unless one of its tokens has two brackets at one end. Only
    one of them is taken off, and the next one is part of a name. -/
theorem balanced_iff_of_read {definition part : Text} {description : Option Text}
    {registry : Registry} (hdivided : Text.Divided true definition part description)
    (hread : Registry.read definition = .ok registry) :
    (Brackets.Balanced 0 (Brackets.steps (Text.words part)) ↔
      ∀ token ∈ Text.words part, Brackets.leading token ≤ 1 ∧ Brackets.trailing token ≤ 1) ∧
    ∀ token ∈ Text.words part,
      (2 ≤ Brackets.leading token → ∃ name ∈ registry.names, name.head? = some '[') ∧
      (2 ≤ Brackets.trailing token → ∃ name ∈ registry.names, name.getLast? = some ']') := by
  obtain ⟨hfits, declared, hspelled, hnames⟩ := exists_spelled_of_read hdivided hread
  constructor
  · have hbalanced : Brackets.Balanced false.toInt (Brackets.steps (Text.words part)) ↔ _ :=
      balanced_steps_iff
    rw [Bool.toInt_false] at hbalanced
    rw [hbalanced]
    exact and_iff_right hfits
  · intro token htoken
    obtain ⟨option, hoption, htext⟩ := hspelled.exists_spelledBy htoken
    have hmem : ∀ name ∈ option.spelledNames, name ∈ registry.names := by
      intro name hname
      rw [← hnames]
      exact List.mem_flatMap_of_mem hoption hname
    constructor
    · intro hleading
      obtain ⟨name, hname, hhead⟩ := htext.exists_head?_name (Brackets.head?_body hleading)
      exact ⟨name, hmem name hname, hhead⟩
    · intro htrailing
      obtain ⟨name, hname, hlast⟩ := htext.exists_getLast?_name (Brackets.getLast?_body htrailing)
      exact ⟨name, hmem name hname, hlast⟩

/-- Here the doubled brackets stand at both ends of one group, so the depth comes back to zero. -/
theorem not_balanced_of_doubled_brackets :
    ∃ registry, Registry.read ['[', '[', 'a', ' ', 'b', ']', ']'] = .ok registry ∧
      registry.names = [['[', 'a'], ['b', ']']] ∧
      (Brackets.steps (Text.words ['[', '[', 'a', ' ', 'b', ']', ']'])).sum = 0 ∧
      ¬ Brackets.Balanced 0 (Brackets.steps (Text.words ['[', '[', 'a', ' ', 'b', ']', ']'])) := by
  have hread : Registry.read ['[', '[', 'a', ' ', 'b', ']', ']'] =
    .ok ⟨[⟨⟨.argument, ['[', 'a']⟩, [], false, some 1⟩,
      ⟨⟨.argument, ['b', ']']⟩, [], false, some 1⟩], none⟩ := rfl
  have hdivided := Text.divided_separateDescription true ['[', '[', 'a', ' ', 'b', ']', ']']
  refine ⟨_, hread, rfl, by decide, fun hbalanced => ?_⟩
  have hends := (balanced_iff_of_read hdivided hread).1.1 hbalanced ['[', '[', 'a'] (by decide)
  exact absurd hends.1 (by decide)

/-- A group inside another one is accepted if it opens and closes in one token, and the inner
    brackets are taken for the name of an argument. -/
theorem read_group_in_group :
    Text.Divided true ['[', '[', 'a', ']', ']'] ['[', '[', 'a', ']', ']'] none ∧
      ¬ Brackets.Balanced 0 (Brackets.steps (Text.words ['[', '[', 'a', ']', ']'])) ∧
      Registry.read ['[', '[', 'a', ']', ']'] =
        .ok ⟨[⟨⟨.argument, ['[', 'a', ']']⟩, [], false, some 1⟩], none⟩ := by
  refine ⟨Text.divided_separateDescription true _, fun hbalanced => ?_, rfl⟩
  have htwo := hbalanced.within [1, 1] ⟨[-1, -1], by decide⟩
  exact absurd htwo.2 (by decide)

end Registry

end CommandLine

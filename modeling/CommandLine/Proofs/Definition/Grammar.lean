import Mathlib.Data.List.Forall2
import CommandLine.Proofs.Definition.Token

/-!
# The grammar of a token

A token has a body between brackets, and the body has segments between bars. A segment spells a form
and its mark; the segments of a body agree on the mark, and only a long form or a single letter has
others behind it. What is read from a token is what it spells, and every token that spells something
is read, where its brackets fit.

Results:
* `Segment.read_eq_ok_iff`: what a segment is read as.
* `Declaration.ofBody_eq_ok_iff`: what a body is read as.
* `Brackets.peel_eq`: what is left of a token without its brackets.
* `Brackets.read_eq_ok_iff`: what a token is read as.
-/

namespace CommandLine

/-! ## Segments -/

namespace Segment

/-- The text spells a form, with a mark if the option takes a value. Whatever looks like a mark is
    one. -/
inductive Spells : Text → Form → Bool → Prop
  | long {name : Text} {takesValue : Bool} (hname : name ≠ []) (hdash : name.head? ≠ some '-')
      (hmark : takesValue = false → name.getLast? ≠ some '=') :
      Spells ('-' :: '-' :: (name ++ valueMark takesValue)) ⟨.long, name⟩ takesValue
  | short {name : Text} {takesValue : Bool} (hname : name ≠ []) (hdash : name.head? ≠ some '-')
      (hmark : takesValue = false → name.getLast? ≠ some '=') :
      Spells ('-' :: (name ++ valueMark takesValue)) ⟨.short, name⟩ takesValue
  | angled {name : Text} (hname : name ≠ []) :
      Spells ('<' :: (name ++ ['>'])) ⟨.argument, name⟩ false
  | bare {name : Text} (hname : name ≠ []) (hdash : name.head? ≠ some '-')
      (hangle : name.head? ≠ some '<') (hmark : name.getLast? ≠ some '=')
      (hclose : name.getLast? ≠ some '>') : Spells name ⟨.argument, name⟩ false

variable {text name : Text} {form : Form} {takesValue : Bool}

theorem written_argument (name : Text) :
    (⟨.argument, name⟩ : Form).written false = '<' :: (name ++ ['>']) :=
  List.append_nil _

/-- A legible form is spelled by what is written for it. -/
theorem spells_written (h : form.Legible takesValue) :
    Spells (form.written takesValue) form takesValue := by
  obtain ⟨kind, name⟩ := form
  cases kind with
  | long => exact .long h.named (h.dash (by simp)) (h.mark (by simp))
  | short => exact .short h.named (h.dash (by simp)) (h.mark (by simp))
  | argument =>
    obtain rfl : takesValue = false := h.value rfl
    rw [written_argument]
    exact .angled h.named

theorem Spells.legible (h : Spells text form takesValue) : form.Legible takesValue := by
  cases h with
  | long hname hdash hmark => exact ⟨hname, fun _ => hdash, fun _ => hmark, by simp⟩
  | short hname hdash hmark => exact ⟨hname, fun _ => hdash, fun _ => hmark, by simp⟩
  | angled hname => exact ⟨hname, by simp, by simp, by simp⟩
  | bare hname => exact ⟨hname, by simp, by simp, by simp⟩

/-- Only an argument may be spelled in another way than it is written. -/
theorem Spells.eq_written (h : Spells text form takesValue) (hkind : form.kind ≠ .argument) :
    text = form.written takesValue := by
  cases h with
  | long => rfl
  | short => rfl
  | angled => exact absurd rfl hkind
  | bare => exact absurd rfl hkind

/-! ### Arguments -/

theorem withoutAngles_eq_ok_iff : withoutAngles text = .ok name ↔
    text = '<' :: (name ++ ['>']) ∨
      text = name ∧ name.head? ≠ some '<' ∧ name.getLast? ≠ some '>' := by
  constructor
  · intro h
    unfold withoutAngles at h
    split at h
    · split at h
      · next inner found hfound =>
        cases h
        rw [Text.dropLast?_eq_some_iff] at hfound
        exact .inl (by rw [hfound])
      · cases h
    · next hangle =>
      split at h
      · cases h
      · next hclose =>
        cases h
        refine .inr ⟨rfl, fun hhead => ?_, hclose⟩
        obtain ⟨inner, rfl⟩ := List.head?_eq_some_iff.1 hhead
        exact hangle inner rfl
  · rintro (rfl | ⟨rfl, hangle, hclose⟩)
    · have hdrop : Text.dropLast? '>' (name ++ ['>']) = some name :=
        Text.dropLast?_eq_some_iff.2 rfl
      simp only [withoutAngles, hdrop]
    · unfold withoutAngles
      split
      · exact absurd rfl hangle
      · rw [if_neg hclose]

/-- An argument is read where there are no dashes. -/
theorem readArgument_of_read {segment : Segment} (h : read text = .ok segment)
    (hkind : segment.form.kind = .argument) :
    text.head? ≠ some '-' ∧ readArgument text = .ok segment := by
  unfold read at h
  split at h
  · split at h <;> cases h
  · rw [(readMarked_eq_ok h).1] at hkind
    cases hkind
  · rw [(readMarked_eq_ok h).1] at hkind
    cases hkind
  · next hdash =>
    refine ⟨fun hhead => ?_, h⟩
    obtain ⟨body, rfl⟩ := List.head?_eq_some_iff.1 hhead
    exact hdash body rfl

theorem read_of_head?_ne (h : text.head? ≠ some '-') : read text = readArgument text := by
  unfold read
  split
  · exact absurd rfl h
  · exact absurd rfl h
  · exact absurd rfl h
  · rfl

theorem spells_of_readArgument (hdash : text.head? ≠ some '-')
    (h : readArgument text = .ok ⟨form, takesValue⟩) : Spells text form takesValue := by
  unfold readArgument at h
  split at h
  · cases h
  · next hmark =>
    split at h
    · cases h
    · next name hname =>
      split at h
      · cases h
      · next hne =>
        cases h
        rcases withoutAngles_eq_ok_iff.1 hname with rfl | ⟨rfl, hangle, hclose⟩
        · exact .angled hne
        · exact .bare hne hdash hangle hmark hclose

/-! ### All forms -/

/-- A segment is read as what it spells. -/
theorem read_eq_ok_iff : read text = .ok ⟨form, takesValue⟩ ↔ Spells text form takesValue := by
  constructor
  · intro h
    obtain ⟨hlegible, htext⟩ := legible_of_read h
    rcases htext with rfl | ⟨hkind, -⟩
    · exact spells_written hlegible
    · obtain ⟨hdash, hargument⟩ := readArgument_of_read h hkind
      exact spells_of_readArgument hdash hargument
  · intro h
    cases h with
    | @long name takesValue hname hdash hmark =>
      show read (Form.written takesValue ⟨.long, name⟩) = _
      exact read_written (Spells.long hname hdash hmark).legible
    | @short name takesValue hname hdash hmark =>
      show read (Form.written takesValue ⟨.short, name⟩) = _
      exact read_written (Spells.short hname hdash hmark).legible
    | @angled name hname =>
      rw [← written_argument]
      exact read_written (Spells.angled hname).legible
    | bare hname hdash hangle hmark hclose =>
      rw [read_of_head?_ne hdash, readArgument, if_neg hmark,
        withoutAngles_eq_ok_iff.2 (.inr ⟨rfl, hangle, hclose⟩)]
      simp only [if_neg hname]

end Segment

/-! ## Bodies -/

/-- A long form, or a short form of a single letter: these may have aliases and be aliases. -/
def Form.IsSingle (form : Form) : Prop :=
  form.kind = .long ∨ form.kind = .short ∧ form.name.length = 1

theorem Form.isSingle_iff {form : Form} (hname : form.name ≠ []) :
    form.IsSingle ↔ form.kind ≠ .argument ∧ form.isCombined = false := by
  have hpos := List.length_pos_iff.2 hname
  unfold Form.IsSingle Form.isCombined
  cases form.kind with
  | long => simp
  | short =>
    simp
    omega
  | argument => simp

namespace Declaration

/-- The body spells the option: the first segment spells its primary form and the others spell its
    aliases, all with the same mark and in the same group. -/
structure SpelledBy (body : Text) (option : Declaration) : Prop where
  primary : Segment.Spells (Text.splitAt '|' body).1 option.primary option.takesValue
  aliases : List.Forall₂
    (fun text other => Segment.Spells text other.form other.takesValue ∧ other.form.IsSingle)
    (Text.splitAt '|' body).2 option.aliases
  single : option.aliases ≠ [] → option.primary.IsSingle
  uniform : option.Uniform

/-- The names that are declared: one for each letter of a short form, and those of the aliases. -/
def spelledNames (option : Declaration) : List Text :=
  if option.primary.kind = .short then
    option.primary.name.map (fun letter => [letter]) ++
      (option.aliases.map Alias.form).map Form.name
  else option.names

variable {body : Text} {option : Declaration} {group : Option Nat} {options : List Declaration}

theorem forall₂_spells_iff {texts : List Text} {others : List Alias} :
    List.Forall₂
        (fun text other => Segment.Spells text other.form other.takesValue ∧ other.form.IsSingle)
        texts others ↔
      (∀ other ∈ others, other.form.Legible other.takesValue ∧ other.form.IsSingle) ∧
        texts = others.map Alias.written := by
  constructor
  · intro h
    induction h with
    | nil => simp
    | @cons text other texts others hother _ ih =>
      obtain ⟨hspells, hsingle⟩ := hother
      have hkind := ((Form.isSingle_iff hspells.legible.named).1 hsingle).1
      refine ⟨List.forall_mem_cons.2 ⟨⟨hspells.legible, hsingle⟩, ih.1⟩, ?_⟩
      rw [List.map_cons, hspells.eq_written hkind, ih.2]
      rfl
  · rintro ⟨hothers, rfl⟩
    rw [List.forall₂_map_left_iff, List.forall₂_same]
    intro other hother
    exact ⟨Segment.spells_written (hothers other hother).1, (hothers other hother).2⟩

theorem SpelledBy.takes (h : option.SpelledBy body) (hnames : option.names.Nodup) :
    ({ option with aliases := [] } : Declaration).Takes (option.aliases.map Alias.form) := by
  obtain ⟨hothers, -⟩ := forall₂_spells_iff.1 h.aliases
  refine ⟨fun hne => ?_, fun form hform => ?_, hnames⟩
  · have hsingle := h.single (mt List.map_eq_nil_iff.2 hne)
    obtain ⟨hkind, hcombined⟩ := (Form.isSingle_iff h.primary.legible.named).1 hsingle
    exact ⟨by simpa [isArgument] using hkind, hcombined⟩
  · obtain ⟨other, hother, rfl⟩ := List.mem_map.1 hform
    obtain ⟨hlegible, hsingle⟩ := hothers other hother
    obtain ⟨hkind, hcombined⟩ := (Form.isSingle_iff hlegible.named).1 hsingle
    rw [(h.uniform other hother).1] at hlegible
    exact ⟨hkind, hcombined, hlegible⟩

/-- What is spelled may be in any group. -/
theorem SpelledBy.inGroup (h : option.SpelledBy body) (group : Option Nat) :
    (option.inGroup group).SpelledBy body where
  primary := h.primary
  aliases := List.forall₂_map_right_iff.2 h.aliases
  single hne := h.single (mt List.map_eq_nil_iff.2 hne)
  uniform := h.uniform.withGroups fun _ => group

/-- A body is read as the letters of what it spells, provided that its names are different. -/
theorem ofBody_eq_ok_iff : ofBody group body = .ok options ↔
    ∃ option : Declaration, option.SpelledBy body ∧ option.group = group ∧ option.names.Nodup ∧
      options = option.components := by
  constructor
  · intro h
    unfold ofBody at h
    split at h
    next first others hsplit =>
    split at h
    · cases h
    · next form takesValue hread =>
      obtain ⟨option, hadd, rfl⟩ := map_eq_ok_iff.1 h
      obtain ⟨forms, htakes, rfl, rfl⟩ := addAliases_eq_ok hadd (by simp [names])
      have huniform : (Declaration.withForms ⟨form, [], takesValue, group⟩ forms).Uniform :=
        (uniform_of_aliases_eq_nil rfl).withForms forms
      refine ⟨_, ⟨?_, ?_, fun hne => ?_, huniform⟩, rfl, ?_, rfl⟩
      · rw [hsplit]
        exact Segment.read_eq_ok_iff.1 hread
      · rw [hsplit]
        refine forall₂_spells_iff.2 ⟨fun other hother => ?_, ?_⟩
        · obtain ⟨form, hform, rfl⟩ := List.mem_map.1 hother
          obtain ⟨hkind, hcombined, hlegible⟩ := htakes.each form hform
          exact ⟨hlegible, (Form.isSingle_iff hlegible.named).2 ⟨hkind, hcombined⟩⟩
        · rw [huniform.map_written, map_form_withForms rfl]
          rfl
      · obtain ⟨hargument, hcombined⟩ := htakes.plain (mt List.map_eq_nil_iff.2 hne)
        refine (Form.isSingle_iff (Segment.read_eq_ok_iff.1 hread).legible.named).2 ⟨?_, hcombined⟩
        simpa [isArgument] using hargument
      · rw [names_withForms]
        exact htakes.distinct
  · rintro ⟨option, h, rfl, hnames, rfl⟩
    have hsplit : Text.splitAt '|' body = ((Text.splitAt '|' body).1,
        (option.aliases.map Alias.form).map (Form.written option.takesValue)) :=
      Prod.ext rfl ((forall₂_spells_iff.1 h.aliases).2.trans h.uniform.map_written)
    have hadd := addAliases_written (h.takes hnames)
    rw [h.uniform.withForms_eq] at hadd
    dsimp only at hadd
    rw [ofBody, hsplit]
    simp only [Segment.read_eq_ok_iff.2 h.primary, hadd, map_ok]

/-! ### Names -/

theorem flatMap_names_ofLetters (takesValue : Bool) (group : Option Nat) (letters : Text) :
    (ofLetters takesValue group letters).flatMap names = letters.map fun letter => [letter] := by
  rcases List.eq_nil_or_concat' letters with rfl | ⟨front, last, rfl⟩
  · rfl
  · rw [ofLetters_append, List.flatMap_append, List.flatMap_map, List.map_append,
      List.map_eq_flatMap]
    rfl

theorem spelledNames_inGroup (group : Option Nat) (option : Declaration) :
    (option.inGroup group).spelledNames = option.spelledNames := by
  unfold spelledNames
  rw [inGroup, names_withGroups, map_form_withGroups]
  rfl

theorem SpelledBy.spelledNames_eq (h : option.SpelledBy body)
    (hcombined : option.primary.isCombined = false) : option.spelledNames = option.names := by
  unfold spelledNames
  split
  · next hshort =>
    have hsingle : option.primary.IsSingle :=
      (Form.isSingle_iff h.primary.legible.named).2 ⟨by simp [hshort], hcombined⟩
    rcases hsingle with hlong | ⟨-, hlength⟩
    · rw [hshort] at hlong
      cases hlong
    · obtain ⟨letter, hletter⟩ := List.length_eq_one_iff.1 hlength
      simp [names, forms, hletter]
  · rfl

theorem SpelledBy.aliases_eq_nil (h : option.SpelledBy body)
    (hcombined : option.primary.isCombined = true) : option.aliases = [] := by
  by_contra hne
  have hsingle := (Form.isSingle_iff h.primary.legible.named).1 (h.single hne)
  rw [hcombined] at hsingle
  cases hsingle.2

/-- The letters of an option have the names that are spelled. -/
theorem SpelledBy.flatMap_names_components (h : option.SpelledBy body) :
    option.components.flatMap names = option.spelledNames := by
  cases hcombined : option.primary.isCombined with
  | true =>
    have hshort : option.primary.kind = .short := by
      simp only [Form.isCombined, Bool.and_eq_true, decide_eq_true_eq] at hcombined
      exact hcombined.1
    rw [components, if_pos hcombined, flatMap_names_ofLetters, spelledNames, if_pos hshort,
      h.aliases_eq_nil hcombined, List.map_nil, List.map_nil, List.append_nil]
    rfl
  | false =>
    rw [components_of_not_isCombined hcombined, h.spelledNames_eq hcombined]
    exact List.append_nil _

theorem SpelledBy.nodup_names (h : option.SpelledBy body) (hnames : option.spelledNames.Nodup) :
    option.names.Nodup := by
  cases hcombined : option.primary.isCombined with
  | true => simp [names, forms, h.aliases_eq_nil hcombined]
  | false => rwa [h.spelledNames_eq hcombined] at hnames

end Declaration

/-! ## Brackets -/

namespace Brackets

/-- The token starts with an opening bracket. -/
def opens (token : Text) : Bool := token.head? = some '['

/-- The token without its opening bracket. -/
def unopened (token : Text) : Text := if opens token then token.tail else token

/-- The token ends with a closing bracket. -/
def closes (token : Text) : Bool := (unopened token).getLast? = some ']'

/-- The token without both of its brackets. -/
def body (token : Text) : Text :=
  if closes token then (unopened token).dropLast else unopened token

theorem opens_iff {token : Text} : opens token = true ↔ token.head? = some '[' :=
  decide_eq_true_iff

theorem closes_iff {token : Text} : closes token = true ↔ token.getLast? = some ']' := by
  unfold closes unopened
  rw [decide_eq_true_iff]
  split
  · next hopens =>
    obtain ⟨rest, rfl⟩ := List.head?_eq_some_iff.1 (opens_iff.1 hopens)
    cases rest with
    | nil => simp
    | cons c rest => rw [List.tail_cons, List.getLast?_cons_cons]
  · rfl

theorem entered_isOpen (opens : Bool) (place : Brackets) :
    (place.entered opens).isOpen = (place.isOpen || opens) := by
  cases opens <;> simp [entered]

theorem left_isOpen (closes : Bool) (place : Brackets) :
    (place.left closes).isOpen = (place.isOpen && !closes) := by
  cases closes <;> simp [left]

theorem enter_eq (place : Brackets) (token : Text) :
    place.enter token =
      if opens token && place.isOpen then .error .nestedOptionals
      else .ok (place.entered (opens token), unopened token) := by
  unfold enter
  split
  · next body =>
    cases hopen : place.isOpen <;> simp [opens, unopened, entered]
  · next hhead =>
    have hopens : opens token = false := by
      cases token with
      | nil => rfl
      | cons c cs =>
        refine decide_eq_false fun hc => ?_
        obtain rfl : c = '[' := by simpa using hc
        exact hhead cs rfl
    simp [hopens, unopened, entered]

theorem leave_eq (place : Brackets) (text : Text) :
    place.leave text =
      if text.getLast? = some ']' then
        if place.isOpen then .ok (place.left true, text.dropLast) else .error .unopenedOptional
      else .ok (place, text) := by
  unfold leave Text.dropLast?
  by_cases hlast : text.getLast? = some ']'
  · simp [hlast, left]
  · simp [hlast]

/-- The brackets of a token are taken off where they fit: one opens a group only while none is open,
    and one closes a group only while one is. -/
theorem peel_eq (place : Brackets) (token : Text) :
    place.peel token =
      if opens token && place.isOpen then .error .nestedOptionals
      else if closes token && !(place.isOpen || opens token) then .error .unopenedOptional
      else .ok ((place.entered (opens token)).left (closes token),
        (place.entered (opens token)).group?, body token) := by
  rw [peel, enter_eq]
  cases hnested : opens token && place.isOpen with
  | true => rfl
  | false =>
    simp only [Bool.false_eq_true, if_false, leave_eq, entered_isOpen]
    by_cases hlast : (unopened token).getLast? = some ']'
    · have hcloses : closes token = true := decide_eq_true hlast
      cases hopen : place.isOpen || opens token <;> simp [hlast, hcloses, body]
    · have hcloses : closes token = false := decide_eq_false hlast
      simp [hlast, hcloses, body, left]

/-- A token is read where its brackets fit and its body is read. -/
theorem read_eq_ok_iff {place after : Brackets} {token : Text} {options : List Declaration} :
    place.read token = (.ok options, after) ↔
      (opens token = true → place.isOpen = false) ∧
        (closes token = true → (place.isOpen || opens token) = true) ∧
        Declaration.ofBody (place.entered (opens token)).group? (body token) = .ok options ∧
        after = (place.entered (opens token)).left (closes token) := by
  rw [read, peel_eq]
  cases hopens : opens token <;> cases hcloses : closes token <;> cases hopen : place.isOpen <;>
    simp [eq_comm]

end Brackets

end CommandLine

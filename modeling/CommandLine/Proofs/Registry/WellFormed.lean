import Mathlib.Data.List.Nodup
import CommandLine.Registry.Read
import CommandLine.Proofs.Definition.Token

/-!
# Registries that a definition declares

Every registry that is read from a definition is well-formed: its names are words without bars and
all different, a short form has one letter, and the groups are numbered in the order in which they
are opened. All this is established token by token, with the place in the brackets as the only state
that is carried along.

Results:
* `Declaration.wellFormed_of_ofBody`: what a body declares is well-formed.
* `Registry.wellFormed_of_read`: so is every registry that is read.
-/

namespace CommandLine

namespace Declaration

/-! ## Options -/

/-- What holds of every option that is declared. A letter without aliases need not be legible: it
    may come from a combined form. -/
structure WellFormed (option : Declaration) : Prop where
  words : ∀ form ∈ option.forms, Text.IsWord form.name
  unbarred : ∀ form ∈ option.forms, '|' ∉ form.name
  letter : ∀ form ∈ option.forms, form.kind = .short → form.name.length = 1
  legible : option.primary.Legible option.takesValue ∨
    option.primary.kind = .short ∧ option.aliases = []
  takes : ({ option with aliases := [] } : Declaration).Takes (option.aliases.map Alias.form)
  uniform : option.Uniform

theorem WellFormed.readable {option : Declaration} (h : option.WellFormed)
    (hlegible : option.primary.Legible option.takesValue) : option.Readable :=
  ⟨hlegible, h.unbarred, h.takes, h.uniform⟩

theorem WellFormed.distinct {option : Declaration} (h : option.WellFormed) :
    option.names.Nodup := by
  simpa [names, forms] using h.takes.distinct

theorem WellFormed.takesValue_eq_false {option : Declaration} (h : option.WellFormed)
    (hargument : option.isArgument = true) : option.takesValue = false := by
  have hkind : option.primary.kind = .argument := by simpa [isArgument] using hargument
  rcases h.legible with hlegible | ⟨hshort, -⟩
  · exact hlegible.value hkind
  · rw [hkind] at hshort
    cases hshort

theorem WellFormed.aliases_eq_nil {option : Declaration} (h : option.WellFormed)
    (hargument : option.isArgument = true) : option.aliases = [] :=
  List.map_eq_nil_iff.1 (h.takes.eq_nil hargument)

/-- The forms of an option that is no argument are long or short. -/
theorem WellFormed.kind_ne_argument {option : Declaration} (h : option.WellFormed)
    (hkind : option.isArgument = false) {form : Form} (hform : form ∈ option.forms) :
    form.kind ≠ .argument := by
  rcases List.mem_cons.1 hform with rfl | hform
  · simpa [isArgument] using hkind
  · exact (h.takes.each form hform).1

/-- A form that is not combined has one letter if it is short. -/
theorem length_of_not_isCombined {form : Form} (h : form.isCombined = false)
    (hname : form.name ≠ []) (hkind : form.kind = .short) : form.name.length = 1 := by
  have := List.length_pos_iff.2 hname
  simp [Form.isCombined, hkind] at h
  omega

/-- A body holds the names that it declares. -/
theorem mem_render_of_mem_name {option : Declaration} (h : option.Uniform) {form : Form}
    (hform : form ∈ option.forms) {c : Char} (hc : c ∈ form.name) : c ∈ option.render := by
  rw [h.render_eq]
  exact Text.mem_intercalate (List.mem_map_of_mem hform) (Form.mem_written_of_mem_name hc)

theorem wellFormed_letter {letter : Char} (hblank : Text.isBlank letter = false)
    (hbar : letter ≠ '|') (takesValue : Bool) (group : Option Nat) :
    (⟨⟨.short, [letter]⟩, [], takesValue, group⟩ : Declaration).WellFormed where
  words := by simp [forms, Text.IsWord, hblank]
  unbarred := by simpa [forms] using Ne.symm hbar
  letter := by simp [forms]
  legible := .inr ⟨rfl, rfl⟩
  takes := ⟨by simp, by simp, by simp [names, forms]⟩
  uniform := uniform_of_aliases_eq_nil rfl

theorem mem_ofLetters {takesValue : Bool} {group : Option Nat} {letters : Text}
    {option : Declaration} (h : option ∈ ofLetters takesValue group letters) :
    ∃ letter ∈ letters, ∃ value, option = ⟨⟨.short, [letter]⟩, [], value, group⟩ := by
  fun_induction ofLetters takesValue group letters with
  | case1 => simp at h
  | case2 letter => exact ⟨letter, by simp, takesValue, by simpa using h⟩
  | case3 letter letters _ ih =>
    rcases List.mem_cons.1 h with rfl | h
    · exact ⟨letter, by simp, false, rfl⟩
    · obtain ⟨other, hother, value, rfl⟩ := ih h
      exact ⟨other, by simp [hother], value, rfl⟩

/-- What a body declares is well-formed, and all of it is in the same group. -/
theorem wellFormed_of_ofBody {group : Option Nat} {body : Text} {options : List Declaration}
    (h : ofBody group body = .ok options) (hbody : ∀ c ∈ body, Text.isBlank c = false) :
    ∀ option ∈ options, option.WellFormed ∧ option.group = group := by
  obtain ⟨declared, hread, rfl, rfl, htext⟩ := exists_readable_of_ofBody h
  have hblank : ∀ form ∈ declared.forms, ∀ c ∈ form.name, Text.isBlank c = false := by
    intro form hform c hc
    rcases htext with rfl | ⟨hargument, rfl⟩
    · exact hbody c (mem_render_of_mem_name hread.uniform hform hc)
    · -- an argument has no other form than its name
      have hnil : declared.aliases = [] := hread.aliases_eq_nil hargument
      obtain rfl : form = declared.primary := by simpa [forms, hnil] using hform
      exact hbody c hc
  intro option hoption
  unfold components at hoption
  split at hoption
  · next hcombined =>
    obtain ⟨letter, hletter, value, rfl⟩ := mem_ofLetters hoption
    have hprimary : declared.primary ∈ declared.forms := by simp [forms]
    refine ⟨wellFormed_letter (hblank _ hprimary letter hletter) ?_ value _, rfl⟩
    rintro rfl
    exact hread.unbarred _ hprimary hletter
  · next hcombined =>
    obtain rfl : option = declared := by simpa using hoption
    have hnamed : ∀ form ∈ option.forms, form.name ≠ [] ∧ form.isCombined = false := by
      intro form hform
      rcases List.mem_cons.1 hform with rfl | hform
      · exact ⟨hread.legible.named, by simpa using hcombined⟩
      · have := hread.takes.each form hform
        exact ⟨this.2.2.named, this.2.1⟩
    exact ⟨⟨fun form hform => ⟨(hnamed form hform).1, hblank form hform⟩, hread.unbarred,
      fun form hform => length_of_not_isCombined (hnamed form hform).2 (hnamed form hform).1,
      .inl hread.legible, hread.takes, hread.uniform⟩, rfl⟩

theorem ne_nil_of_ofBody {group : Option Nat} {body : Text} {options : List Declaration}
    (h : ofBody group body = .ok options) : options ≠ [] := by
  obtain ⟨declared, hread, rfl, rfl, -⟩ := exists_readable_of_ofBody h
  unfold components
  split
  · obtain ⟨front, last, hname⟩ :=
      (List.eq_nil_or_concat' declared.name).resolve_left hread.legible.named
    rw [hname, ofLetters_append]
    simp
  · simp

end Declaration

namespace Registry

/-! ## Groups -/

/-- The groups are numbered in the order in which they open. The first option follows one of the
    group `previous`, and `opened` groups were opened so far. -/
inductive Numbered : Option Nat → Nat → List Declaration → Prop
  | nil {previous : Option Nat} {opened : Nat} : Numbered previous opened []
  | mandatory {previous : Option Nat} {opened : Nat} {option : Declaration}
      {options : List Declaration} (hgroup : option.group = none)
      (hrest : Numbered none opened options) : Numbered previous opened (option :: options)
  | opens {previous : Option Nat} {opened : Nat} {option : Declaration}
      {options : List Declaration} (hgroup : option.group = some (opened + 1))
      (hrest : Numbered (some (opened + 1)) (opened + 1) options) :
      Numbered previous opened (option :: options)
  | continues {opened : Nat} {option : Declaration} {options : List Declaration}
      (hgroup : option.group = some opened) (hrest : Numbered (some opened) opened options) :
      Numbered (some opened) opened (option :: options)

theorem Numbered.mandatory_append {opened : Nat} {front rest : List Declaration}
    (hfront : ∀ option ∈ front, option.group = none) (hrest : Numbered none opened rest) :
    Numbered none opened (front ++ rest) := by
  induction front with
  | nil => exact hrest
  | cons option front ih =>
    exact .mandatory (hfront option (by simp)) (ih fun o ho => hfront o (by simp [ho]))

theorem Numbered.continues_append {opened : Nat} {front rest : List Declaration}
    (hfront : ∀ option ∈ front, option.group = some opened)
    (hrest : Numbered (some opened) opened rest) :
    Numbered (some opened) opened (front ++ rest) := by
  induction front with
  | nil => exact hrest
  | cons option front ih =>
    exact .continues (hfront option (by simp)) (ih fun o ho => hfront o (by simp [ho]))

/-- The options of one token extend the numbering. -/
theorem Numbered.append {place : Brackets} {previous : Option Nat} {opens : Bool}
    {front rest : List Declaration} (hplace : place.isOpen = true → previous = some place.opened)
    (hne : front ≠ [])
    (hfront : ∀ option ∈ front, option.group = (place.entered opens).group?)
    (hrest : Numbered (place.entered opens).group? (place.entered opens).opened rest) :
    Numbered previous place.opened (front ++ rest) := by
  obtain ⟨first, others, rfl⟩ := List.exists_cons_of_ne_nil hne
  have hfirst := hfront first (by simp)
  have hothers : ∀ option ∈ others, option.group = (place.entered opens).group? :=
    fun o ho => hfront o (by simp [ho])
  cases opens with
  | true => exact .opens hfirst (Numbered.continues_append hothers hrest)
  | false =>
    cases hopen : place.isOpen with
    | true =>
      simp only [Brackets.entered, Brackets.group?, hopen, Bool.false_eq_true, if_false, if_true]
        at hfirst hothers hrest
      rw [hplace hopen]
      exact .continues hfirst (Numbered.continues_append hothers hrest)
    | false =>
      simp only [Brackets.entered, Brackets.group?, hopen, Bool.false_eq_true, if_false]
        at hfirst hothers hrest
      exact .mandatory hfirst (Numbered.mandatory_append hothers hrest)

/-! ## Names -/

theorem firstRepeated_eq_none_iff {seen found : List Text} :
    firstRepeated seen found = none ↔ found.Nodup ∧ ∀ name ∈ found, name ∉ seen := by
  induction found generalizing seen with
  | nil => simp [firstRepeated]
  | cons name found ih =>
    rw [firstRepeated]
    by_cases hseen : name ∈ seen
    · simp [hseen]
    · rw [if_neg hseen, ih, List.nodup_cons]
      constructor
      · rintro ⟨hnodup, hnew⟩
        refine ⟨⟨fun hmem => hnew name hmem (by simp), hnodup⟩, fun other hother => ?_⟩
        rcases List.mem_cons.1 hother with rfl | hother
        · exact hseen
        · exact fun hmem => hnew other hother (List.mem_cons_of_mem _ hmem)
      · rintro ⟨⟨hname, hnodup⟩, hnew⟩
        refine ⟨hnodup, fun other hother hmem => ?_⟩
        rcases List.mem_cons.1 hmem with rfl | hmem
        · exact hname hother
        · exact hnew other (List.mem_cons_of_mem _ hother) hmem

/-! ## Reading -/

/-- What one token does: it is read at its place in the brackets and declares new names. -/
theorem exists_of_readTokens_cons {place : Brackets} {seen : List Text} {token : Text}
    {tokens : List Text} {options : List Declaration}
    (h : readTokens place seen (token :: tokens) = .ok options) :
    ∃ front rest after, place.read token = (.ok front, after) ∧
      ((front.flatMap Declaration.names).Nodup ∧
        ∀ name ∈ front.flatMap Declaration.names, name ∉ seen) ∧
      readTokens after (seen ++ front.flatMap Declaration.names) tokens = .ok rest ∧
      options = front ++ rest := by
  rw [readTokens] at h
  split at h
  · cases h
  · next front after hread =>
    dsimp only at h
    split at h
    · cases h
    · next hnew =>
      obtain ⟨rest, hrest, rfl⟩ := map_eq_ok_iff.1 h
      exact ⟨front, rest, after, hread, firstRepeated_eq_none_iff.1 hnew, hrest, rfl⟩

theorem isBlank_eq_false_of_bracketed {opens closes : Bool} {body : Text}
    (h : Text.IsWord (Brackets.bracketed opens closes body)) :
    ∀ c ∈ body, Text.isBlank c = false :=
  fun c hc => h.2 c (by simp [Brackets.bracketed, hc])

theorem wellFormed_of_readTokens {place : Brackets} {seen tokens : List Text}
    {options : List Declaration} (h : readTokens place seen tokens = .ok options)
    (htokens : ∀ token ∈ tokens, Text.IsWord token) :
    ∀ option ∈ options, option.WellFormed := by
  induction tokens generalizing place seen options with
  | nil =>
    rw [readTokens] at h
    split at h <;> cases h
    simp
  | cons token tokens ih =>
    obtain ⟨front, rest, after, hread, -, hrest, rfl⟩ := exists_of_readTokens_cons h
    obtain ⟨opens, closes, body, rfl, -, -, hbody, -⟩ := Brackets.exists_bracketed_of_read hread
    intro option hoption
    rcases List.mem_append.1 hoption with hoption | hoption
    · exact (Declaration.wellFormed_of_ofBody hbody
        (isBlank_eq_false_of_bracketed (htokens _ List.mem_cons_self)) option hoption).1
    · exact ih hrest (fun t ht => htokens t (by simp [ht])) option hoption

theorem distinct_of_readTokens {place : Brackets} {seen tokens : List Text}
    {options : List Declaration} (h : readTokens place seen tokens = .ok options) :
    (options.flatMap Declaration.names).Nodup ∧
      ∀ name ∈ options.flatMap Declaration.names, name ∉ seen := by
  induction tokens generalizing place seen options with
  | nil =>
    rw [readTokens] at h
    split at h <;> cases h
    simp
  | cons token tokens ih =>
    obtain ⟨front, rest, after, -, ⟨hnodup, hnew⟩, hrest, rfl⟩ := exists_of_readTokens_cons h
    obtain ⟨hnodup', hnew'⟩ := ih hrest
    rw [List.flatMap_append]
    constructor
    · refine List.nodup_append.2 ⟨hnodup, hnodup', fun name hname other hother => ?_⟩
      rintro rfl
      exact hnew' name hother (by simp [hname])
    · intro name hname hseen
      rcases List.mem_append.1 hname with hname | hname
      · exact hnew name hname hseen
      · exact hnew' name hname (by simp [hseen])

theorem numbered_of_readTokens {place : Brackets} {previous : Option Nat}
    {seen tokens : List Text} {options : List Declaration}
    (h : readTokens place seen tokens = .ok options)
    (htokens : ∀ token ∈ tokens, Text.IsWord token)
    (hplace : place.isOpen = true → previous = some place.opened) :
    Numbered previous place.opened options := by
  induction tokens generalizing place previous seen options with
  | nil =>
    rw [readTokens] at h
    split at h <;> cases h
    exact .nil
  | cons token tokens ih =>
    obtain ⟨front, rest, after, hread, -, hrest, rfl⟩ := exists_of_readTokens_cons h
    obtain ⟨opens, closes, body, rfl, -, -, hbody, rfl⟩ := Brackets.exists_bracketed_of_read hread
    have hwell := Declaration.wellFormed_of_ofBody hbody
      (isBlank_eq_false_of_bracketed (htokens _ List.mem_cons_self))
    have hopened : ((place.entered opens).left closes).opened = (place.entered opens).opened := by
      cases closes <;> rfl
    refine Numbered.append hplace (Declaration.ne_nil_of_ofBody hbody)
      (fun option hoption => (hwell option hoption).2) ?_
    rw [← hopened]
    refine ih hrest (fun t ht => htokens t (by simp [ht])) fun hopen => ?_
    cases closes with
    | true => cases hopen
    | false =>
      have hopen' : (place.entered opens).isOpen = true := hopen
      simp [Brackets.group?, Brackets.left, hopen']

/-- What holds of every registry that is read from a definition. -/
structure WellFormed (registry : Registry) : Prop where
  options : ∀ option ∈ registry.options, option.WellFormed
  distinct : registry.names.Nodup
  numbered : Numbered none 0 registry.options

theorem WellFormed.isArgument_eq_false {registry : Registry} (h : registry.WellFormed)
    {option : Declaration} (hoption : option ∈ registry.options)
    (hvalue : option.takesValue = true) : option.isArgument = false := by
  by_contra hkind
  rw [(h.options option hoption).takesValue_eq_false (by simpa using hkind)] at hvalue
  cases hvalue

theorem exists_of_read {definition : Text} {registry : Registry}
    (h : Registry.read definition = .ok registry) :
    ∃ tokens, (∀ token ∈ tokens, Text.IsWord token) ∧
      readTokens {} [] tokens = .ok registry.options := by
  obtain ⟨options, hoptions, rfl⟩ := map_eq_ok_iff.1 h
  exact ⟨_, fun token htoken => Text.isWord_of_mem_words htoken, hoptions⟩

/-- Every registry that is read is well-formed. -/
theorem wellFormed_of_read {definition : Text} {registry : Registry}
    (h : Registry.read definition = .ok registry) : registry.WellFormed := by
  obtain ⟨tokens, htokens, hread⟩ := exists_of_read h
  exact ⟨wellFormed_of_readTokens hread htokens, (distinct_of_readTokens hread).1,
    numbered_of_readTokens hread htokens (by simp)⟩

end Registry

end CommandLine

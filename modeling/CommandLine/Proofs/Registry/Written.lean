import CommandLine.Proofs.Registry.WellFormed

/-!
# The token that is written for an option

An option is written as one token, with a bracket where its group begins or ends. The token is read
back unless the option is a letter that reads as syntax when it stands alone: `-` turns into the
dashes of a long form, `=` into a mark, and `]` into a closing bracket.

Results:
* `Declaration.read_token`: the token of a faithful option is read back at its place.
* `Declaration.read_token_of_misread`: the token of a misread option is refused.
* `Declaration.faithful_of_not_misread`, `Declaration.not_misread_of_faithful`: there are no others.
-/

namespace CommandLine

/-- The place between neighbours in the groups `previous` and `next`. -/
def Brackets.between (previous next : Option Nat) (opened : Nat) : Brackets :=
  ⟨previous.isSome && previous = next, opened⟩

namespace Declaration

/-! ## Tokens -/

/-- The group of the option does not reach over to a neighbour in the group `other`. -/
def borders (other : Option Nat) (option : Declaration) : Bool :=
  option.isOptional && option.group ≠ other

/-- The token that is written for an option between neighbours in these groups. -/
def token (previous next : Option Nat) (option : Declaration) : Text :=
  Brackets.bracketed (option.borders previous) (option.borders next) option.render

/-- A letter that may end like its group. -/
def IsBracket (option : Declaration) : Prop :=
  option.primary = ⟨.short, [']']⟩ ∧ option.takesValue = false ∧ option.aliases = []

/-- A letter that reads as syntax when it stands alone, in front of an option in the group `next`:
    a dash, an equals sign without a value, or a bracket inside a group or outside of any. -/
def Misread (next : Option Nat) (option : Declaration) : Prop :=
  option.primary = ⟨.short, ['-']⟩ ∨
    option.primary = ⟨.short, ['=']⟩ ∧ option.takesValue = false ∨
    option.IsBracket ∧ (option.group = none ∨ option.group = next)

theorem borders_eq_false_iff {other : Option Nat} {option : Declaration} :
    option.borders other = false ↔ option.group = none ∨ option.group = other := by
  cases hgroup : option.group <;> simp [borders, isOptional, hgroup]

/-! ## Endings -/

theorem render_of_aliases_eq_nil {option : Declaration} (h : option.aliases = []) :
    option.render = option.primary.written option.takesValue := by
  rw [render, h, List.map_nil, List.intercalate_singleton]

/-- Only a bracket that stands alone ends its text without being read so, or else the body ends like
    the option that it declares. -/
theorem getLast?_render_of_ofBody {group : Option Nat} {body : Text} {options : List Declaration}
    (h : ofBody group body = .ok options) :
    (∀ option ∈ options, option.render.getLast? = some ']' → option.IsBracket) ∨
      ∃ option, options = [option] ∧
        (option.render.getLast? = some ']' → body.getLast? = some ']') := by
  obtain ⟨declared, hread, rfl, rfl, htext⟩ := exists_readable_of_ofBody h
  cases hcombined : declared.primary.isCombined with
  | true =>
    left
    intro option hoption hlast
    rw [components, if_pos hcombined] at hoption
    obtain ⟨letter, -, value, rfl⟩ := mem_ofLetters hoption
    rw [render_of_aliases_eq_nil rfl] at hlast
    cases value with
    | true => simp [Form.written, Form.render] at hlast
    | false =>
      obtain rfl : letter = ']' := by simpa [Form.written, Form.render] using hlast
      exact ⟨rfl, rfl, rfl⟩
  | false =>
    refine .inr ⟨declared, components_of_not_isCombined hcombined, fun hlast => ?_⟩
    rcases htext with rfl | ⟨hargument, -⟩
    · exact hlast
    · -- the text of an argument ends with its angle bracket
      have hkind : declared.primary.kind = .argument := by simpa [isArgument] using hargument
      rw [render_of_aliases_eq_nil (hread.aliases_eq_nil hargument), Form.written,
        hread.legible.value hkind, Form.render, hkind, valueMark_false, List.append_nil,
        List.getLast?_concat] at hlast
      cases hlast

/-! ## Reading one token -/

/-- An option in front of one of the group `next` whose token is read back. -/
structure Faithful (next : Option Nat) (option : Declaration) : Prop where
  readable : option.Readable
  ends : option.borders next = false → option.render.getLast? ≠ some ']'

/-- A letter has a name of one character. -/
theorem WellFormed.exists_letter {option : Declaration} (h : option.WellFormed)
    (hkind : option.primary.kind = .short) : ∃ letter, option.primary = ⟨.short, [letter]⟩ := by
  obtain ⟨letter, hletter⟩ :=
    List.length_eq_one_iff.1 (h.letter option.primary (by simp [forms]) hkind)
  exact ⟨letter, by rw [← hkind, ← hletter]⟩

/-- What is not misread is read back. -/
theorem faithful_of_not_misread {next : Option Nat} {option : Declaration} (h : option.WellFormed)
    (hsealed : option.render.getLast? = some ']' →
      option.IsBracket ∨ option.borders next = true) (hmisread : ¬ option.Misread next) :
    option.Faithful next := by
  constructor
  · refine h.readable ?_
    rcases h.legible with hlegible | ⟨hkind, -⟩
    · exact hlegible
    · obtain ⟨letter, hletter⟩ := h.exists_letter hkind
      have hdash : letter ≠ '-' := by
        rintro rfl
        exact hmisread (.inl hletter)
      have hmark : option.takesValue = false → letter ≠ '=' := by
        rintro hvalue rfl
        exact hmisread (.inr (.inl ⟨hletter, hvalue⟩))
      rw [hletter]
      exact ⟨by simp, fun _ => by simpa using hdash, fun _ hv => by simpa using hmark hv, by simp⟩
  · intro hborders hlast
    rcases hsealed hlast with hbracket | hborders'
    · exact hmisread (.inr (.inr ⟨hbracket, borders_eq_false_iff.1 hborders⟩))
    · rw [hborders] at hborders'
      cases hborders'

theorem not_misread_of_faithful {next : Option Nat} {option : Declaration}
    (h : option.Faithful next) : ¬ option.Misread next := by
  rintro (hprimary | ⟨hprimary, hvalue⟩ | ⟨⟨hprimary, hvalue, haliases⟩, hgroup⟩)
  · simpa [hprimary] using h.readable.legible.dash
  · simpa [hprimary, hvalue] using h.readable.legible.mark
  · have hlast := h.ends (borders_eq_false_iff.2 hgroup)
    rw [render_of_aliases_eq_nil haliases, hprimary, hvalue] at hlast
    exact hlast rfl

/-- The text of an option starts with the sign of its primary form. -/
theorem head?_render (option : Declaration) :
    option.render.head? = some '-' ∨ option.render.head? = some '<' := by
  obtain ⟨⟨kind, name⟩, aliases, takesValue, group⟩ := option
  unfold render
  cases aliases <;> cases kind <;>
    simp [List.intercalate_cons_cons, Form.written, Form.render]

/-- The number of groups opened so far, before and after an option behind one of the group
    `previous`. -/
def Opens (previous : Option Nat) (opened opened' : Nat) (option : Declaration) : Prop :=
  option.group = none ∧ opened' = opened ∨
    option.group = some opened' ∧ option.group ≠ previous ∧ opened' = opened + 1 ∨
    option.group = some opened' ∧ option.group = previous ∧ opened' = opened

theorem entered_between {option : Declaration} {previous : Option Nat} {opened opened' : Nat}
    (h : option.Opens previous opened opened') :
    (Brackets.between previous option.group opened).entered (option.borders previous) =
      ⟨option.isOptional, opened'⟩ := by
  rcases h with ⟨hgroup, rfl⟩ | ⟨hgroup, hprevious, rfl⟩ | ⟨hgroup, hprevious, rfl⟩
  · cases previous <;>
      simp [Brackets.between, Brackets.entered, borders, isOptional, hgroup]
  · rw [hgroup] at hprevious
    simp [Brackets.between, Brackets.entered, borders, isOptional, hgroup, hprevious]
  · rw [← hprevious]
    simp [Brackets.between, Brackets.entered, borders, isOptional, hgroup]

/-- The token of a faithful option is read at its place in the brackets. -/
theorem read_token {option : Declaration} {previous next : Option Nat} {opened opened' : Nat}
    (h : option.Faithful next) (hcomponents : option.components = [option])
    (hopens : option.Opens previous opened opened') :
    (Brackets.between previous option.group opened).read (option.token previous next) =
      (.ok [option], Brackets.between option.group next opened') := by
  have hentered := entered_between hopens
  have hhead : option.render.head? ≠ some '[' := by
    rcases head?_render option with h | h <;> simp [h]
  have hne : option.render ≠ [] := by
    intro hnil
    rcases head?_render option with h | h <;> simp [hnil] at h
  have hopen : option.borders previous = true →
      (Brackets.between previous option.group opened).isOpen = false := by
    intro hborders
    simp only [borders, Bool.and_eq_true, decide_eq_true_eq] at hborders
    simp [Brackets.between, Ne.symm hborders.2]
  have hclose : option.borders next = true →
      ((Brackets.between previous option.group opened).entered (option.borders previous)).isOpen =
        true := by
    intro hborders
    rw [hentered]
    simp only [borders, Bool.and_eq_true] at hborders
    exact hborders.1
  have hpeel := Brackets.peel_bracketed hopen (fun _ => hhead) hne hclose h.ends
  have hgroup : (⟨option.isOptional, opened'⟩ : Brackets).group? = option.group := by
    rcases hopens with ⟨hgroup, -⟩ | ⟨hgroup, -⟩ | ⟨hgroup, -⟩ <;>
      simp [Brackets.group?, isOptional, hgroup]
  have hleft : (⟨option.isOptional, opened'⟩ : Brackets).left (option.borders next) =
      Brackets.between option.group next opened' := by
    by_cases hnext : option.group = next <;> cases hoption : option.group <;>
      simp_all [Brackets.left, Brackets.between, borders, isOptional]
  rw [hentered, hgroup, hleft] at hpeel
  rw [token, Brackets.read_of_peel hpeel, ofBody_render h.readable, hcomponents]

/-- The token of a letter that reads as syntax is refused wherever it stands. -/
theorem read_token_of_misread {option : Declaration} {next : Option Nat} (h : option.WellFormed)
    (hmisread : option.Misread next) (previous : Option Nat) (place : Brackets) :
    ∃ mistake after, place.read (option.token previous next) = (.error mistake, after) := by
  obtain ⟨isOpen, opened⟩ := place
  have hillegible : ¬ option.primary.Legible option.takesValue → option.aliases = [] := by
    intro hnot
    exact (h.legible.resolve_left hnot).2
  rcases hmisread with hprimary | ⟨hprimary, hvalue⟩ | ⟨⟨hprimary, hvalue, haliases⟩, hgroup⟩
  · have hnil := hillegible fun hlegible => by simpa [hprimary] using hlegible.dash
    rw [token, render_of_aliases_eq_nil hnil, hprimary]
    cases option.takesValue <;> cases option.borders previous <;> cases option.borders next <;>
      cases isOpen <;> exact ⟨_, _, rfl⟩
  · have hnil := hillegible fun hlegible => by simpa [hprimary, hvalue] using hlegible.mark
    rw [token, render_of_aliases_eq_nil hnil, hprimary, hvalue]
    cases option.borders previous <;> cases option.borders next <;>
      cases isOpen <;> exact ⟨_, _, rfl⟩
  · rw [token, borders_eq_false_iff.2 hgroup, render_of_aliases_eq_nil haliases, hprimary, hvalue]
    cases option.borders previous <;> cases isOpen <;> exact ⟨_, _, rfl⟩

/-! ## Words -/

theorem token_ne_separator {option : Declaration} {previous next : Option Nat}
    (h : option.Readable) : option.token previous next ≠ ['-', '-'] := by
  intro htoken
  have hrender : option.render = ['-', '-'] := by
    unfold token at htoken
    generalize option.borders previous = opens, option.borders next = closes at htoken
    cases opens with
    | true => simp [Brackets.bracketed] at htoken
    | false =>
      cases closes with
      | true => simpa [Brackets.bracketed] using congrArg List.getLast? htoken
      | false => simpa [Brackets.bracketed] using htoken
  have hread := ofBody_render h
  rw [hrender] at hread
  cases hread

theorem components_of_wellFormed {option : Declaration} (h : option.WellFormed) :
    option.components = [option] := by
  refine components_of_not_isCombined ?_
  cases hkind : option.primary.kind with
  | short => simp [Form.isCombined, h.letter option.primary (by simp [forms]) hkind]
  | long => simp [Form.isCombined, hkind]
  | argument => simp [Form.isCombined, hkind]

/-- No character of the syntax is blank. -/
theorem isBlank_of_mem_syntax {c : Char} (h : c ∈ ['[', ']', '|'] ++ ['-', '<', '>', '=']) :
    Text.isBlank c = false := by
  have hall : (['[', ']', '|'] ++ ['-', '<', '>', '=']).all (fun d => !Text.isBlank d) = true := rfl
  simpa using List.all_eq_true.1 hall c h

theorem mem_bracketed {opens closes : Bool} {body : Text} {c : Char}
    (h : c ∈ Brackets.bracketed opens closes body) : c ∈ ['[', ']', '|'] ∨ c ∈ body := by
  unfold Brackets.bracketed at h
  rcases List.mem_append.1 h with h | h
  · cases opens with
    | true => exact .inl (List.mem_singleton.1 h ▸ List.mem_cons_self)
    | false => cases h
  · rcases List.mem_append.1 h with h | h
    · exact .inr h
    · cases closes with
      | true => exact .inl (List.mem_singleton.1 h ▸ List.mem_cons_of_mem _ List.mem_cons_self)
      | false => cases h

/-- The token of an option is a word. -/
theorem isWord_token {option : Declaration} (h : option.WellFormed) (previous next : Option Nat) :
    Text.IsWord (option.token previous next) := by
  constructor
  · intro hnil
    rcases head?_render option with hhead | hhead <;>
      simp_all [token, Brackets.bracketed]
  · intro c hc
    rcases mem_bracketed hc with hbracket | hbody
    · exact isBlank_of_mem_syntax (List.mem_append_left _ hbracket)
    · rw [h.uniform.render_eq] at hbody
      rcases Text.exists_of_mem_intercalate hbody with rfl | ⟨piece, hpiece, hcpiece⟩
      · exact isBlank_of_mem_syntax (by simp)
      · obtain ⟨form, hform, rfl⟩ := List.mem_map.1 hpiece
        rcases Form.mem_written hcpiece with hname | hmark
        · exact (h.words form hform).2 c hname
        · exact isBlank_of_mem_syntax (List.mem_append_right _ hmark)

end Declaration

end CommandLine

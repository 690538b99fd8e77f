import Mathlib.Data.List.Nodup
import CommandLine.Definition.Token
import CommandLine.Except
import CommandLine.Proofs.Definition.Segment
import CommandLine.Proofs.Text.Words

/-!
# Tokens and the options that they declare

The body of a token declares an option that is readable: its forms are legible, none of them holds a
bar, and only a long form or a single letter has aliases. Conversely what is written for a readable
option declares just this option. A combined short form stands for one option per letter, and these
letters need not be legible by themselves.

Results:
* `Declaration.exists_readable_of_ofBody`: what a body declares.
* `Declaration.ofBody_render`: a readable option is read back.
* `Brackets.exists_bracketed_of_peel`, `Brackets.peel_bracketed`: the brackets of a token.
-/

namespace CommandLine

namespace Declaration

/-- The forms may follow the option as its aliases. -/
structure Takes (option : Declaration) (others : List Form) : Prop where
  plain : others ≠ [] → option.isArgument = false ∧ option.primary.isCombined = false
  each : ∀ form ∈ others, form.kind ≠ .argument ∧ form.isCombined = false ∧
    form.Legible option.takesValue
  distinct : (option.names ++ others.map Form.name).Nodup

/-- The aliases take a value and belong to a group just as the option itself. -/
def Uniform (option : Declaration) : Prop :=
  ∀ other ∈ option.aliases, other.takesValue = option.takesValue ∧ other.group = option.group

/-- An option as one body may declare it. -/
structure Readable (option : Declaration) : Prop where
  legible : option.primary.Legible option.takesValue
  unbarred : ∀ form ∈ option.forms, '|' ∉ form.name
  takes : ({ option with aliases := [] } : Declaration).Takes (option.aliases.map Alias.form)
  uniform : option.Uniform

/-- An argument has no aliases. -/
theorem Takes.eq_nil {option : Declaration} {others : List Form} (h : option.Takes others)
    (hargument : option.isArgument = true) : others = [] := by
  by_contra hne
  rw [(h.plain hne).1] at hargument
  cases hargument

/-- This form as an alias of the option. -/
def aliasAs (option : Declaration) (form : Form) : Alias := ⟨form, option.takesValue, option.group⟩

theorem map_form_aliasAs (option : Declaration) (others : List Form) :
    (others.map option.aliasAs).map Alias.form = others := by
  rw [List.map_map]
  exact List.map_id others

/-- The option with more aliases. -/
def withForms (option : Declaration) (others : List Form) : Declaration :=
  { option with aliases := option.aliases ++ others.map option.aliasAs }

@[simp] theorem withForms_nil (option : Declaration) : option.withForms [] = option := by
  simp [withForms]

theorem withForms_cons (option : Declaration) (form : Form) (others : List Form) :
    option.withForms (form :: others) = (option.withForms [form]).withForms others := by
  show ({ option with
      aliases := option.aliases ++ (option.aliasAs form :: others.map option.aliasAs) }
        : Declaration) =
    { option with
      aliases := option.aliases ++ [option.aliasAs form] ++ others.map option.aliasAs }
  rw [List.append_assoc, List.singleton_append]

theorem forms_withForms (option : Declaration) (others : List Form) :
    (option.withForms others).forms = option.forms ++ others := by
  show option.primary :: (option.aliases ++ others.map option.aliasAs).map Alias.form = _
  rw [List.map_append, map_form_aliasAs]
  rfl

theorem names_withForms (option : Declaration) (others : List Form) :
    (option.withForms others).names = option.names ++ others.map Form.name := by
  rw [names, forms_withForms, List.map_append]
  rfl

theorem uniform_of_aliases_eq_nil {option : Declaration} (h : option.aliases = []) :
    option.Uniform := by
  intro other hother
  rw [h] at hother
  cases hother

theorem Uniform.withForms {option : Declaration} (h : option.Uniform) (others : List Form) :
    (option.withForms others).Uniform := by
  intro other hother
  rcases List.mem_append.1 hother with hother | hother
  · exact h other hother
  · obtain ⟨form, -, rfl⟩ := List.mem_map.1 hother
    exact ⟨rfl, rfl⟩

theorem map_form_withForms {option : Declaration} (h : option.aliases = []) (others : List Form) :
    (option.withForms others).aliases.map Alias.form = others := by
  rw [withForms, h]
  exact map_form_aliasAs option others

/-- An option that is uniform has its aliases from their forms. -/
theorem Uniform.withForms_eq {option : Declaration} (h : option.Uniform) :
    ({ option with aliases := [] } : Declaration).withForms (option.aliases.map Alias.form) =
      option := by
  have haliases : (option.aliases.map Alias.form).map option.aliasAs = option.aliases := by
    rw [List.map_map]
    conv_rhs => rw [← List.map_id option.aliases]
    refine List.map_congr_left fun other hother => ?_
    obtain ⟨hvalue, hgroup⟩ := h other hother
    show (⟨other.form, option.takesValue, option.group⟩ : Alias) = other
    rw [← hvalue, ← hgroup]
  show ({ option with aliases := [] ++ (option.aliases.map Alias.form).map option.aliasAs }
    : Declaration) = option
  rw [haliases, List.nil_append]

/-! ## Groups -/

/-- The option with other groups, its own one and those of its aliases. -/
def withGroups (change : Option Nat → Option Nat) (option : Declaration) : Declaration :=
  { option with
    aliases := option.aliases.map fun other => { other with group := change other.group }
    group := change option.group }

/-- The option in this group, with all its aliases. -/
def inGroup (group : Option Nat) (option : Declaration) : Declaration :=
  option.withGroups fun _ => group

theorem map_form_withGroups (change : Option Nat → Option Nat) (option : Declaration) :
    (option.withGroups change).aliases.map Alias.form = option.aliases.map Alias.form := by
  rw [withGroups, List.map_map]
  rfl

theorem forms_withGroups (change : Option Nat → Option Nat) (option : Declaration) :
    (option.withGroups change).forms = option.forms := by
  rw [forms, map_form_withGroups]
  rfl

theorem names_withGroups (change : Option Nat → Option Nat) (option : Declaration) :
    (option.withGroups change).names = option.names := by
  rw [names, forms_withGroups, names]

theorem withGroups_withGroups (change later : Option Nat → Option Nat) (option : Declaration) :
    (option.withGroups change).withGroups later = option.withGroups (later ∘ change) := by
  unfold withGroups
  rw [List.map_map]
  rfl

theorem Uniform.withGroups {option : Declaration} (h : option.Uniform)
    (change : Option Nat → Option Nat) : (option.withGroups change).Uniform := by
  intro other hother
  obtain ⟨old, hold, rfl⟩ := List.mem_map.1 hother
  exact ⟨(h old hold).1, congrArg change (h old hold).2⟩

/-- The aliases are where the option is, so it is enough to know its own group. -/
theorem Uniform.withGroups_congr {option : Declaration} (h : option.Uniform)
    {change other : Option Nat → Option Nat} (hgroup : change option.group = other option.group) :
    option.withGroups change = option.withGroups other := by
  have haliases : option.aliases.map (fun found => { found with group := change found.group }) =
      option.aliases.map fun found => { found with group := other found.group } :=
    List.map_congr_left fun found hfound => by rw [(h found hfound).2, hgroup]
  rw [Declaration.withGroups, Declaration.withGroups, haliases, hgroup]

/-! ## Aliases -/

theorem addAlias_eq_ok {option extended : Declaration} {text : Text}
    (h : option.addAlias option.group text = .ok extended) (hnames : option.names.Nodup) :
    ∃ form, option.Takes [form] ∧ text = form.written option.takesValue ∧
      extended = option.withForms [form] := by
  unfold addAlias at h
  split at h
  · cases h
  · next hargument =>
    split at h
    · cases h
    · next hcombined =>
      split at h
      · cases h
      · next form takesValue hread =>
        obtain ⟨hlegible, htext⟩ := Segment.legible_of_read hread
        split at h
        · cases h
        · next hkind =>
          split at h
          · cases h
          · next hform =>
            split at h
            · cases h
            · next hvalue =>
              split at h
              · cases h
              · next hname =>
                cases h
                obtain rfl : takesValue = option.takesValue := Decidable.not_not.1 hvalue
                refine ⟨form, ⟨fun _ => ?_, fun f hf => ?_, ?_⟩, ?_, rfl⟩
                · exact ⟨by simpa using hargument, by simpa using hcombined⟩
                · obtain rfl : f = form := by simpa using hf
                  exact ⟨hkind, by simpa using hform, hlegible⟩
                · rw [List.map_singleton, List.nodup_append]
                  refine ⟨hnames, by simp, fun a ha b hb => ?_⟩
                  rintro rfl
                  exact hname (by simpa [show a = form.name by simpa using hb] using ha)
                · exact htext.resolve_right fun harg => hkind harg.1

theorem addAlias_written {option : Declaration} {form : Form} (h : option.Takes [form]) :
    option.addAlias option.group (form.written option.takesValue) =
      .ok (option.withForms [form]) := by
  obtain ⟨hargument, hcombined⟩ := h.plain (by simp)
  obtain ⟨hkind, hform, hlegible⟩ := h.each form (by simp)
  have hname : form.name ∉ option.names := by
    intro hmem
    exact (List.nodup_append.1 h.distinct).2.2 form.name hmem form.name (by simp) rfl
  simp [addAlias, hargument, hcombined, Segment.read_written hlegible, hkind, hform, hname,
    withForms, aliasAs]

theorem Takes.head {option : Declaration} {form : Form} {others : List Form}
    (h : option.Takes (form :: others)) : option.Takes [form] := by
  refine ⟨fun _ => h.plain (by simp), fun f hf => h.each f (by simp_all), ?_⟩
  refine h.distinct.sublist ?_
  simp

theorem Takes.tail {option : Declaration} {form : Form} {others : List Form}
    (h : option.Takes (form :: others)) : (option.withForms [form]).Takes others := by
  refine ⟨fun _ => h.plain (by simp), fun f hf => h.each f (by simp [hf]), ?_⟩
  rw [names_withForms, List.append_assoc]
  exact h.distinct

theorem addAliases_eq_ok {option extended : Declaration} {texts : List Text}
    (h : option.addAliases option.group texts = .ok extended) (hnames : option.names.Nodup) :
    ∃ others, option.Takes others ∧ texts = others.map (Form.written option.takesValue) ∧
      extended = option.withForms others := by
  induction texts generalizing option with
  | nil =>
    cases h
    exact ⟨[], ⟨by simp, by simp, by simpa using hnames⟩, rfl, by simp⟩
  | cons text texts ih =>
    rw [addAliases] at h
    split at h
    · next next hnext =>
      obtain ⟨form, htakes, htext, rfl⟩ := addAlias_eq_ok hnext hnames
      have hnodup : (option.withForms [form]).names.Nodup := by
        rw [names_withForms]
        exact htakes.distinct
      obtain ⟨others, hrest, htexts, rfl⟩ := ih h hnodup
      refine ⟨form :: others, ⟨fun _ => htakes.plain (by simp), fun f hf => ?_, ?_⟩, ?_, ?_⟩
      · rcases List.mem_cons.1 hf with rfl | hf
        · exact htakes.each f (by simp)
        · exact hrest.each f hf
      · have := hrest.distinct
        rwa [names_withForms, List.append_assoc] at this
      · rw [htext, htexts]
        rfl
      · rw [withForms_cons option form others]
    · cases h

theorem addAliases_written {option : Declaration} {others : List Form} (h : option.Takes others) :
    option.addAliases option.group (others.map (Form.written option.takesValue)) =
      .ok (option.withForms others) := by
  induction others generalizing option with
  | nil => simp [addAliases]
  | cons form others ih =>
    rw [List.map_cons, addAliases, addAlias_written h.head, withForms_cons option form others]
    exact ih h.tail

/-! ## Bodies -/

theorem Uniform.map_written {option : Declaration} (h : option.Uniform) :
    option.aliases.map Alias.written =
      (option.aliases.map Alias.form).map (Form.written option.takesValue) := by
  rw [List.map_map]
  refine List.map_congr_left fun other hother => ?_
  rw [Alias.written, (h other hother).1]
  rfl

/-- All forms are written with the mark of the option. -/
theorem Uniform.render_eq {option : Declaration} (h : option.Uniform) :
    option.render = ['|'].intercalate (option.forms.map (Form.written option.takesValue)) := by
  rw [render, h.map_written]
  rfl

theorem splitAt_render {option : Declaration} (huniform : option.Uniform)
    (h : ∀ form ∈ option.forms, '|' ∉ form.name) :
    Text.splitAt '|' option.render =
      (option.primary.written option.takesValue,
        (option.aliases.map Alias.form).map (Form.written option.takesValue)) := by
  rw [huniform.render_eq]
  refine Text.splitAt_intercalate _ _ fun piece hpiece hbar => ?_
  rw [← List.map_cons, List.mem_map] at hpiece
  obtain ⟨form, hform, rfl⟩ := hpiece
  rcases Form.mem_written hbar with hname | hsyntax
  · exact h form hform hname
  · simp at hsyntax

theorem Readable.aliases_eq_nil {option : Declaration} (h : option.Readable)
    (hargument : option.isArgument = true) : option.aliases = [] :=
  List.map_eq_nil_iff.1 (h.takes.eq_nil hargument)

/-- What a body declares. Only the name of an argument may be written in another way. -/
theorem exists_readable_of_ofBody {group : Option Nat} {body : Text} {options : List Declaration}
    (h : ofBody group body = .ok options) :
    ∃ option : Declaration, option.Readable ∧ option.group = group ∧ options = option.components ∧
      (body = option.render ∨ option.isArgument = true ∧ body = option.name) := by
  have hpieces := Text.intercalate_splitAt '|' body
  have hfree := Text.splitAt_free '|' body
  unfold ofBody at h
  generalize Text.splitAt '|' body = pieces at h hpieces hfree
  obtain ⟨first, texts⟩ := pieces
  simp only at h hpieces hfree
  split at h
  · cases h
  · next form takesValue hread =>
    obtain ⟨hlegible, hfirst⟩ := Segment.legible_of_read hread
    obtain ⟨option, hadd, rfl⟩ := map_eq_ok_iff.1 h
    obtain ⟨others, htakes, rfl, rfl⟩ := addAliases_eq_ok hadd (by simp [names])
    have hothers : ∀ other ∈ others, '|' ∉ other.name := fun other hother hbar =>
      hfree.2 _ (List.mem_map_of_mem hother) (Form.mem_written_of_mem_name hbar)
    have hform : '|' ∉ form.name := by
      rcases hfirst with hfirst | ⟨-, hfirst⟩
      · exact fun hbar => hfree.1 (hfirst ▸ Form.mem_written_of_mem_name hbar)
      · exact hfirst ▸ hfree.1
    have huniform : (Declaration.withForms ⟨form, [], takesValue, group⟩ others).Uniform :=
      (uniform_of_aliases_eq_nil rfl).withForms others
    have hforms := forms_withForms ⟨form, [], takesValue, group⟩ others
    refine ⟨_, ⟨hlegible, fun other hother => ?_, ?_, huniform⟩, rfl, rfl, ?_⟩
    · rw [hforms] at hother
      rcases List.mem_cons.1 hother with rfl | hother
      · exact hform
      · exact hothers other hother
    · rw [map_form_withForms rfl]
      exact htakes
    · rcases hfirst with rfl | ⟨hkind, rfl⟩
      · rw [huniform.render_eq, hforms]
        exact .inl hpieces.symm
      · -- an argument has no aliases, so the whole body is its name
        have hargument : form.kind = .argument := hkind
        obtain rfl : others = [] := htakes.eq_nil (by simp [isArgument, hargument])
        rw [List.map_nil, List.intercalate_singleton] at hpieces
        exact .inr ⟨by simp [withForms, isArgument, hargument], hpieces.symm⟩

/-- A readable option is read back. -/
theorem ofBody_render {option : Declaration} (h : option.Readable) :
    ofBody option.group option.render = .ok option.components := by
  have hadd := addAliases_written h.takes
  rw [h.uniform.withForms_eq] at hadd
  dsimp only at hadd
  rw [ofBody, splitAt_render h.uniform h.unbarred]
  simp only [Segment.read_written h.legible, hadd, map_ok]

/-! ## Letters -/

theorem components_of_not_isCombined {option : Declaration}
    (h : option.primary.isCombined = false) : option.components = [option] := by
  simp [components, h]

theorem ofLetters_append (takesValue : Bool) (group : Option Nat) (letters : Text) (last : Char) :
    ofLetters takesValue group (letters ++ [last]) =
      letters.map (fun letter => ⟨⟨.short, [letter]⟩, [], false, group⟩) ++
        [⟨⟨.short, [last]⟩, [], takesValue, group⟩] := by
  induction letters with
  | nil => rfl
  | cons letter letters ih =>
    obtain ⟨next, rest, hrest⟩ := List.exists_cons_of_ne_nil
      (show letters ++ [last] ≠ [] by simp)
    rw [List.map_cons, List.cons_append, List.cons_append, ← ih, hrest, ofLetters]
    simp

end Declaration

namespace Brackets

/-! ## Brackets -/

/-- A body between brackets, each of which may be missing. -/
def bracketed (opens closes : Bool) (body : Text) : Text :=
  (if opens then ['['] else []) ++ (body ++ if closes then [']'] else [])

/-- The place behind an opening bracket, if there is one. -/
def entered (opens : Bool) (place : Brackets) : Brackets :=
  if opens then ⟨true, place.opened + 1⟩ else place

/-- The place behind a closing bracket, if there is one. -/
def left (closes : Bool) (place : Brackets) : Brackets :=
  if closes then { place with isOpen := false } else place

theorem enter_eq_ok {place inside : Brackets} {token rest : Text}
    (h : place.enter token = .ok (inside, rest)) :
    ∃ opens : Bool, token = (if opens then ['['] else []) ++ rest ∧ inside = place.entered opens ∧
      (opens = true → place.isOpen = false) ∧ (opens = false → rest.head? ≠ some '[') := by
  unfold enter at h
  split at h
  · split at h
    · cases h
    · next hopen =>
      cases h
      exact ⟨true, rfl, rfl, by simpa using hopen, by simp⟩
  · next hhead =>
    cases h
    refine ⟨false, rfl, rfl, by simp, fun _ hd => ?_⟩
    obtain ⟨body, rfl⟩ := List.head?_eq_some_iff.1 hd
    exact hhead body rfl

theorem enter_append {place : Brackets} {opens : Bool} {rest : Text}
    (hopen : opens = true → place.isOpen = false) (hhead : opens = false → rest.head? ≠ some '[') :
    place.enter ((if opens then ['['] else []) ++ rest) = .ok (place.entered opens, rest) := by
  cases opens with
  | true => simp [enter, entered, hopen rfl]
  | false =>
    simp only [Bool.false_eq_true, if_false, List.nil_append, entered]
    unfold enter
    split
    · simp at hhead
    · rfl

theorem leave_eq_ok {place after : Brackets} {token body : Text}
    (h : place.leave token = .ok (after, body)) :
    ∃ closes : Bool, token = body ++ (if closes then [']'] else []) ∧ after = place.left closes ∧
      (closes = true → place.isOpen = true) ∧ (closes = false → body.getLast? ≠ some ']') := by
  unfold leave at h
  split at h
  · next hlast =>
    split at h
    · next hopen =>
      cases h
      exact ⟨true, Text.dropLast?_eq_some_iff.1 hlast, rfl, by simpa using hopen, by simp⟩
    · cases h
  · next hlast =>
    cases h
    exact ⟨false, by simp, rfl, by simp, fun _ => Text.dropLast?_eq_none_iff.1 hlast⟩

theorem leave_append {place : Brackets} {closes : Bool} {body : Text}
    (hopen : closes = true → place.isOpen = true)
    (hlast : closes = false → body.getLast? ≠ some ']') :
    place.leave (body ++ if closes then [']'] else []) = .ok (place.left closes, body) := by
  unfold leave
  cases closes with
  | true => simp [Text.dropLast?_eq_some_iff.2, left, hopen rfl]
  | false => simp [Text.dropLast?_eq_none_iff.2 (hlast rfl), left]

/-- The brackets that a token is read with: each is seen whenever it is there. -/
theorem exists_bracketed_of_peel {place after : Brackets} {group : Option Nat} {token body : Text}
    (h : place.peel token = .ok (after, group, body)) :
    ∃ opens closes : Bool, token = bracketed opens closes body ∧
      (opens = true → place.isOpen = false) ∧
      (closes = true → (place.entered opens).isOpen = true) ∧
      (closes = false → body.getLast? ≠ some ']') ∧
      group = (place.entered opens).group? ∧ after = (place.entered opens).left closes := by
  unfold peel at h
  split at h
  · cases h
  · next inside rest henter =>
    obtain ⟨⟨after', body'⟩, hleave, heq⟩ := map_eq_ok_iff.1 h
    cases heq
    obtain ⟨opens, rfl, rfl, hopen, -⟩ := enter_eq_ok henter
    obtain ⟨closes, rfl, rfl, hclose, hlast⟩ := leave_eq_ok hleave
    exact ⟨opens, closes, rfl, hopen, hclose, hlast, rfl, rfl⟩

theorem peel_bracketed {place : Brackets} {opens closes : Bool} {body : Text}
    (hopen : opens = true → place.isOpen = false)
    (hhead : opens = false → body.head? ≠ some '[') (hbody : body ≠ [])
    (hclose : closes = true → (place.entered opens).isOpen = true)
    (hlast : closes = false → body.getLast? ≠ some ']') :
    place.peel (bracketed opens closes body) =
      .ok ((place.entered opens).left closes, (place.entered opens).group?, body) := by
  have hrest : opens = false → (body ++ if closes then [']'] else []).head? ≠ some '[' := by
    obtain ⟨c, cs, rfl⟩ := List.exists_cons_of_ne_nil hbody
    simpa using hhead
  rw [bracketed, peel, enter_append hopen hrest]
  simp only [leave_append hclose hlast, map_ok]

/-- A token that is read is a body between brackets. -/
theorem exists_bracketed_of_read {place after : Brackets} {token : Text}
    {options : List Declaration} (h : place.read token = (.ok options, after)) :
    ∃ opens closes body, token = bracketed opens closes body ∧
      (closes = true → (place.entered opens).isOpen = true) ∧
      (closes = false → body.getLast? ≠ some ']') ∧
      Declaration.ofBody (place.entered opens).group? body = .ok options ∧
      after = (place.entered opens).left closes := by
  unfold read at h
  split at h
  · next hpeel =>
    obtain ⟨hbody, rfl⟩ := Prod.mk.inj h
    obtain ⟨opens, closes, rfl, -, hclose, hlast, rfl, rfl⟩ := exists_bracketed_of_peel hpeel
    exact ⟨opens, closes, _, rfl, hclose, hlast, hbody, rfl⟩
  · cases h

theorem read_of_peel {place after : Brackets} {group : Option Nat} {token body : Text}
    (h : place.peel token = .ok (after, group, body)) :
    place.read token = (Declaration.ofBody group body, after) := by
  rw [read, h]

end Brackets

end CommandLine

import CommandLine.Definition.Segment

/-!
# Segments and the forms that they declare

What is written for a form declares this form, provided that the form is legible: its name is not
empty, and nothing in front of the name or behind it can be taken for a dash or for the mark `=`.
Every form that is read is legible.

Results:
* `Segment.read_written`: a legible form is read back.
* `Segment.legible_of_read`: what is read is legible, and it is written as it was read unless it is
  the bare name of an argument.
-/

namespace CommandLine

@[simp] theorem valueMark_true : valueMark true = ['='] := rfl

@[simp] theorem valueMark_false : valueMark false = [] := rfl

namespace Form

/-- Nothing in the name can be taken for a dash in front of it or a mark behind it. -/
structure Legible (takesValue : Bool) (form : Form) : Prop where
  named : form.name ≠ []
  dash : form.kind ≠ .argument → form.name.head? ≠ some '-'
  mark : form.kind ≠ .argument → takesValue = false → form.name.getLast? ≠ some '='
  value : form.kind = .argument → takesValue = false

theorem mem_written_of_mem_name {takesValue : Bool} {form : Form} {c : Char}
    (h : c ∈ form.name) : c ∈ form.written takesValue := by
  obtain ⟨kind, name⟩ := form
  cases kind <;> simp_all [written, render]

/-- What is written holds the name and the characters of the syntax. -/
theorem mem_written {takesValue : Bool} {form : Form} {c : Char}
    (h : c ∈ form.written takesValue) : c ∈ form.name ∨ c ∈ ['-', '<', '>', '='] := by
  obtain ⟨kind, name⟩ := form
  cases kind <;> cases takesValue <;> simp [written, render] at h ⊢ <;> grind

end Form

namespace Segment

/-! ## Long and short forms -/

/-- Every text is a name and a mark, where a mark is seen whenever there is one. -/
theorem exists_mark (body : Text) : ∃ name takesValue, body = name ++ valueMark takesValue ∧
    (takesValue = false → name.getLast? ≠ some '=') := by
  cases hmark : Text.dropLast? '=' body with
  | some name => exact ⟨name, true, Text.dropLast?_eq_some_iff.1 hmark, by simp⟩
  | none => exact ⟨body, false, by simp, fun _ => Text.dropLast?_eq_none_iff.1 hmark⟩

theorem readMarked_append {kind : Kind} {name : Text} {takesValue : Bool}
    (hmark : takesValue = false → name.getLast? ≠ some '=') :
    readMarked kind (name ++ valueMark takesValue) =
      if name = [] then .error .emptyName else .ok ⟨⟨kind, name⟩, takesValue⟩ := by
  unfold readMarked
  cases takesValue with
  | true => rw [valueMark_true, Text.dropLast?_eq_some_iff.2 rfl]
  | false => rw [valueMark_false, List.append_nil, Text.dropLast?_eq_none_iff.2 (hmark rfl)]

theorem readMarked_eq_ok {kind : Kind} {body : Text} {segment : Segment}
    (h : readMarked kind body = .ok segment) :
    segment.form.kind = kind ∧ body = segment.form.name ++ valueMark segment.takesValue ∧
      segment.form.name ≠ [] ∧
      (segment.takesValue = false → segment.form.name.getLast? ≠ some '=') := by
  obtain ⟨name, takesValue, rfl, hmark⟩ := exists_mark body
  rw [readMarked_append hmark] at h
  split at h
  · cases h
  · next hne =>
    cases h
    exact ⟨rfl, rfl, hne, hmark⟩

/-- A marked name behind its dashes is legible if no further dash follows them. -/
theorem legible_of_readMarked {kind : Kind} {body : Text} {segment : Segment}
    (h : readMarked kind body = .ok segment) (hkind : kind ≠ .argument)
    (hdash : body.head? ≠ some '-') : segment.form.Legible segment.takesValue := by
  obtain ⟨hform, rfl, hne, hmark⟩ := readMarked_eq_ok h
  refine ⟨hne, fun _ hd => hdash ?_, fun _ => hmark, fun hargument => ?_⟩
  · obtain ⟨cs, hname⟩ := List.head?_eq_some_iff.1 hd
    rw [hname]
    rfl
  · exact absurd (hform.symm.trans hargument) hkind

/-! ## Arguments -/

theorem withoutAngles_eq_ok {body name : Text} (h : withoutAngles body = .ok name) :
    body = '<' :: name ++ ['>'] ∨ body = name := by
  unfold withoutAngles at h
  split at h
  · next inner =>
    split at h
    · next found hfound =>
      rw [Text.dropLast?_eq_some_iff] at hfound
      cases h
      exact .inl (by rw [hfound]; rfl)
    · cases h
  · split at h
    · cases h
    · cases h
      exact .inr rfl

theorem readArgument_eq_ok {body : Text} {segment : Segment}
    (h : readArgument body = .ok segment) :
    segment.form.kind = .argument ∧ segment.takesValue = false ∧ segment.form.name ≠ [] ∧
      (body = segment.form.render ∨ body = segment.form.name) := by
  unfold readArgument at h
  split at h
  · cases h
  · split at h
    · cases h
    · next name hname =>
      split at h
      · cases h
      · next hne =>
        cases h
        exact ⟨rfl, rfl, hne, withoutAngles_eq_ok hname⟩

theorem readArgument_render {name : Text} (h : name ≠ []) :
    readArgument ('<' :: name ++ ['>']) = .ok ⟨⟨.argument, name⟩, false⟩ := by
  have hlast : ('<' :: name ++ ['>']).getLast? = some '>' := List.getLast?_concat
  have hdrop : Text.dropLast? '>' (name ++ ['>']) = some name :=
    Text.dropLast?_eq_some_iff.2 rfl
  rw [readArgument, hlast, if_neg (by decide), List.cons_append, withoutAngles, hdrop]
  simp only [if_neg h]

/-! ## All forms -/

/-- What is read is legible, and it is written as it was read unless it is a bare name. -/
theorem legible_of_read {text : Text} {segment : Segment} (h : read text = .ok segment) :
    segment.form.Legible segment.takesValue ∧
      (text = segment.form.written segment.takesValue ∨
        segment.form.kind = .argument ∧ text = segment.form.name) := by
  unfold read at h
  split at h
  · split at h <;> cases h
  · next body hdash =>
    have hhead : body.head? ≠ some '-' := fun hd => by
      obtain ⟨rest, rfl⟩ := List.head?_eq_some_iff.1 hd
      exact hdash rest rfl
    obtain ⟨hkind, hbody, -⟩ := readMarked_eq_ok h
    refine ⟨legible_of_readMarked h (by simp) hhead, .inl ?_⟩
    simp only [Form.written, Form.render, hkind, hbody, List.cons_append]
  · next body _ hdash =>
    have hhead : body.head? ≠ some '-' := fun hd => by
      obtain ⟨rest, rfl⟩ := List.head?_eq_some_iff.1 hd
      exact hdash rest rfl
    obtain ⟨hkind, hbody, -⟩ := readMarked_eq_ok h
    refine ⟨legible_of_readMarked h (by simp) hhead, .inl ?_⟩
    simp only [Form.written, Form.render, hkind, hbody, List.cons_append]
  · next body _ _ _ =>
    obtain ⟨hkind, hvalue, hne, hbody⟩ := readArgument_eq_ok h
    refine ⟨⟨hne, fun hc => absurd hkind hc, fun hc => absurd hkind hc, fun _ => hvalue⟩, ?_⟩
    rcases hbody with hbody | hbody
    · exact .inl (by rw [hbody, hvalue, Form.written, valueMark_false, List.append_nil])
    · exact .inr ⟨hkind, hbody⟩

/-- A legible form is read back. -/
theorem read_written {form : Form} {takesValue : Bool} (h : form.Legible takesValue) :
    read (form.written takesValue) = .ok ⟨form, takesValue⟩ := by
  obtain ⟨kind, name⟩ := form
  obtain ⟨hne, hdash, hmark, hvalue⟩ := h
  have hmarked : kind ≠ .argument →
      readMarked kind (name ++ valueMark takesValue) = .ok ⟨⟨kind, name⟩, takesValue⟩ :=
    fun hk => by rw [readMarked_append (hmark hk), if_neg hne]
  obtain ⟨c, cs, rfl⟩ := List.exists_cons_of_ne_nil hne
  cases kind with
  | long =>
    have hc : c ≠ '-' := fun hc => hdash (by simp) (by simp [hc])
    simpa [Form.written, Form.render, read, hc] using hmarked (by simp)
  | short =>
    have hc : c ≠ '-' := fun hc => hdash (by simp) (by simp [hc])
    simpa [Form.written, Form.render, read, hc] using hmarked (by simp)
  | argument =>
    obtain rfl : takesValue = false := hvalue rfl
    simpa [Form.written, Form.render, read] using readArgument_render hne

end Segment

end CommandLine

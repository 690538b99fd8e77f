/-!
# Texts

Everything that is read or written here (definitions, tokens, names, lines of a usage page) is a
text: a list of Unicode scalar values. Lengths and widths count these characters, and two texts are
equal when their characters are; nothing is normalised.

* `splitAt`: the pieces of a text between the occurrences of one character.
* `lines`: the lines of a text, each ended by a line feed or by the end of the text.
-/

namespace CommandLine

/-- A text is the list of its characters. -/
abbrev Text := List Char

namespace Text

/-- Texts are looked up in lists of texts by comparing their characters. -/
instance decidableMem (text : Text) (texts : List Text) : Decidable (text ∈ texts) := inferInstance

/-- The pieces between the occurrences of `separator`: the first one and the others. There is one
    piece more than there are occurrences, and pieces may be empty. -/
def splitAt (separator : Char) : Text → Text × List Text
  | [] => ([], [])
  | c :: cs =>
    let (piece, pieces) := splitAt separator cs
    if c = separator then ([], piece :: pieces) else (c :: piece, pieces)

/-- The lines of a text. A line feed ends a line, so none is opened by a line feed at the very end.
    A carriage return stays on its line, where it counts as white space. -/
def lines (text : Text) : List Text :=
  let (first, rest) := splitAt '\n' text
  if (first :: rest).getLast? = some [] then (first :: rest).dropLast else first :: rest

/-- The text without the last character, provided that this is `c`. -/
def dropLast? (c : Char) (text : Text) : Option Text :=
  if text.getLast? = some c then some text.dropLast else none

/-- The parts, one space between each two. -/
def joinWords (parts : List Text) : Text := [' '].intercalate parts

/-- The lines as one text, a line feed between each two. -/
def joinLines (parts : List Text) : Text := ['\n'].intercalate parts

/-! ## Small facts -/

@[simp] theorem splitAt_nil (separator : Char) : splitAt separator [] = ([], []) := rfl

theorem dropLast?_eq_some_iff {c : Char} {text body : Text} :
    dropLast? c text = some body ↔ text = body ++ [c] := by
  unfold dropLast?
  constructor
  · intro h
    split at h
    · next hlast =>
      obtain ⟨front, rfl⟩ := List.getLast?_eq_some_iff.1 hlast
      simp at h
      simp [h]
    · simp at h
  · rintro rfl
    simp

theorem dropLast?_eq_none_iff {c : Char} {text : Text} :
    dropLast? c text = none ↔ text.getLast? ≠ some c := by
  unfold dropLast?
  split <;> simp_all

/-- No piece holds the separator. -/
theorem splitAt_free (separator : Char) (text : Text) :
    separator ∉ (splitAt separator text).1 ∧ ∀ p ∈ (splitAt separator text).2, separator ∉ p := by
  induction text with
  | nil => simp
  | cons c cs ih =>
    by_cases h : c = separator
    · simpa [splitAt, h] using ih
    · simp only [splitAt, if_neg h, List.mem_cons, not_or]
      exact ⟨⟨fun e => h e.symm, ih.1⟩, ih.2⟩

/-- The pieces, joined by the separator, are the text. -/
theorem intercalate_splitAt (separator : Char) (text : Text) :
    [separator].intercalate ((splitAt separator text).1 :: (splitAt separator text).2) = text := by
  induction text with
  | nil => rfl
  | cons c cs ih =>
    by_cases h : c = separator
    · subst h
      simp only [splitAt, if_pos]
      rw [List.intercalate_cons_cons, ih]
      rfl
    · simp only [splitAt, if_neg h]
      cases hp : (splitAt separator cs).2 with
      | nil => rw [hp] at ih; simpa [List.intercalate] using ih
      | cons p ps =>
        rw [hp, List.intercalate_cons_cons] at ih
        rw [List.intercalate_cons_cons]
        simpa using ih

end Text

end CommandLine

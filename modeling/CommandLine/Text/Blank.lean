import CommandLine.Text.Basic

/-!
# White space

The characters that separate words are those with the Unicode property `White_Space`. A word is a
maximal run of other characters.

* `words`: the words of a text, in order.
* `words_free`: words are not empty and hold no white space.
-/

namespace CommandLine.Text

/-- The Unicode property `White_Space`, as ranges of code points. -/
def blankRanges : List (Nat × Nat) :=
  [(0x09, 0x0D), (0x20, 0x20), (0x85, 0x85), (0xA0, 0xA0), (0x1680, 0x1680), (0x2000, 0x200A),
    (0x2028, 0x2029), (0x202F, 0x202F), (0x205F, 0x205F), (0x3000, 0x3000)]

/-- Whether a character is white space. -/
def isBlank (c : Char) : Bool :=
  blankRanges.any fun range => range.1 ≤ c.toNat && c.toNat ≤ range.2

/-- Puts `c` in front of the first word if that follows at once, and starts a word otherwise. -/
def extendWords (c : Char) (rest : Text) (found : List Text) : List Text :=
  match rest, found with
  | d :: _, word :: others => if isBlank d then [c] :: word :: others else (c :: word) :: others
  | _, others => [c] :: others

/-- The words of a text. -/
def words : Text → List Text
  | [] => []
  | c :: cs => if isBlank c then words cs else extendWords c cs (words cs)

/-! ## Small facts -/

@[simp] theorem isBlank_space : isBlank ' ' = true := by decide

@[simp] theorem isBlank_dash : isBlank '-' = false := by decide

@[simp] theorem words_nil : words [] = [] := rfl

theorem words_blank {c : Char} (h : isBlank c = true) (cs : Text) : words (c :: cs) = words cs := by
  simp [words, h]

theorem mem_extendWords {c : Char} {rest : Text} {found : List Text} {word : Text}
    (h : word ∈ extendWords c rest found) :
    word = [c] ∨ (∃ w ∈ found, word = c :: w) ∨ word ∈ found := by
  unfold extendWords at h
  split at h
  · split at h <;> simp at h <;> grind
  · simp at h; grind

/-- Words are not empty and hold no white space. -/
theorem words_free {text word : Text} (h : word ∈ words text) :
    word ≠ [] ∧ ∀ c ∈ word, isBlank c = false := by
  induction text generalizing word with
  | nil => simp at h
  | cons c cs ih =>
    by_cases hc : isBlank c = true
    · exact ih (by simpa [words, hc] using h)
    · simp only [words, if_neg hc] at h
      rcases mem_extendWords h with rfl | ⟨w, hw, rfl⟩ | hw
      · simpa using hc
      · exact ⟨by simp, by simpa [hc] using (ih hw).2⟩
      · exact ih hw

end CommandLine.Text

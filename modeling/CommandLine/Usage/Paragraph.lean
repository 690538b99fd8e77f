import CommandLine.Text.Blank

/-!
# Paragraphs

A paragraph is laid out by filling each line with as many words as fit. A word that is wider than a
line is broken: pieces of it, each with a hyphen, take lines of their own, and its rest opens the
next line.

* `Width`: a width that leaves room for that.
* `breakWord`: the broken-off lines of a word, and its rest.
* `fillParagraph`: the lines of a paragraph.
-/

namespace CommandLine

/-- The number of characters on a line, at least twenty. -/
structure Width where
  columns : Nat
  twenty_le : 20 ≤ columns
  deriving DecidableEq, Repr

namespace Width

/-- The width closest to the one that is asked for. -/
def ofNat (columns : Nat) : Width := ⟨max columns 20, Nat.le_max_right columns 20⟩

/-- The width of a page that does not go to a terminal. -/
def standard : Width := ⟨80, by decide⟩

end Width

/-- Breaks lines of full width off a word until the rest fits. -/
def breakWord (width : Width) (word : Text) : List Text × Text :=
  if width.columns < word.length then
    let (lines, rest) := breakWord width (word.drop (width.columns - 1))
    ((word.take (width.columns - 1) ++ ['-']) :: lines, rest)
  else ([], word)
termination_by word.length
decreasing_by
  have := width.twenty_le
  simp only [List.length_drop]
  omega

/-- The lines for the rest of a paragraph when its last line so far is `current`. -/
def fillOnto (width : Width) (current : Text) : List Text → List Text
  | [] => [current]
  | word :: words =>
    if current.length + 1 + word.length ≤ width.columns then
      fillOnto width (current ++ ' ' :: word) words
    else
      let (lines, rest) := breakWord width word
      current :: lines ++ fillOnto width rest words

/-- The lines of a paragraph. -/
def fillParagraph (width : Width) (paragraph : Text) : List Text :=
  match Text.words paragraph with
  | [] => []
  | word :: words =>
    let (lines, rest) := breakWord width word
    lines ++ fillOnto width rest words

end CommandLine

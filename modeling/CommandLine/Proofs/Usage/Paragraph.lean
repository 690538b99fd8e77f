import Mathlib.Data.List.Forall2
import CommandLine.Proofs.Text.Words
import CommandLine.Usage.Page

/-!
# Filled paragraphs

The lines of a paragraph come in stretches. A stretch is one line of words, between single spaces,
and in front of it the pieces that were broken off the first of these words, each with a hyphen on a
line of its own. Only a word that is wider than a line is broken, and every piece has all columns
but the one for the hyphen, so the lines of a stretch say which words they were filled with.

Where no word has to be broken, filling takes the fewest lines: whatever fits on one line of another
layout goes on from the line that is being filled, or fits on the next one as a whole.

Results:
* `exists_broken`: what `breakWord` breaks off a word, and what it leaves.
* `exists_stretches_fillOnto`: the rest of a paragraph is written in stretches.
* `shows_concat_blank_iff`: white space at the end of a line plays no role.
* `usageLines_description`: the lines of a usage page in front of the commands.
* `length_fillOnto_flatten_le`: filling is at most one line behind any layout of the rest.
* `fillParagraph_fewest`: no layout has fewer lines.
-/

namespace CommandLine

/-- A line of a paragraph, with what was broken off its first word in front of it. -/
structure Stretch where
  /-- What was broken off the first word. -/
  pieces : List Text
  /-- What is left of the first word. -/
  rest : Text
  /-- The words behind it. -/
  others : List Text

namespace Stretch

/-- The first word, as it was before it was broken. -/
def word (stretch : Stretch) : Text := stretch.pieces.flatten ++ stretch.rest

/-- The words that are written. -/
def words (stretch : Stretch) : List Text := stretch.word :: stretch.others

/-- What stands on the last line. -/
def row (stretch : Stretch) : List Text := stretch.rest :: stretch.others

/-- The lines: each piece with a hyphen, then the rest with the words behind it. -/
def lines (stretch : Stretch) : List Text :=
  stretch.pieces.map (· ++ ['-']) ++ [Text.joinWords stretch.row]

/-- The lines have the width, and only a word that is wider is broken. -/
structure Fits (width : Width) (stretch : Stretch) : Prop where
  length_pieces : ∀ piece ∈ stretch.pieces, piece.length = width.columns - 1
  broken_iff : stretch.pieces ≠ [] ↔ width.columns < stretch.word.length
  length_others : ∀ word ∈ stretch.others, word.length ≤ width.columns
  rest_ne_nil : stretch.rest ≠ []
  length_row : (Text.joinWords stretch.row).length ≤ width.columns

end Stretch

/-- The lines are those of the stretches, and the words are theirs, too. -/
structure WrittenIn (width : Width) (stretches : List Stretch) (words lines : List Text) :
    Prop where
  lines_eq : lines = stretches.flatMap Stretch.lines
  words_eq : words = stretches.flatMap Stretch.words
  fits : ∀ stretch ∈ stretches, stretch.Fits width

variable {width : Width}

/-! ## Breaking a word -/

theorem breakWord_of_le {word : Text} (h : word.length ≤ width.columns) :
    breakWord width word = ([], word) := by
  unfold breakWord
  rw [if_neg (by omega)]

/-- What is broken off a word, and what is left of it, make a stretch. -/
theorem exists_broken (width : Width) {word : Text} (hword : word ≠ []) :
    ∃ pieces rest, breakWord width word = (pieces.map (· ++ ['-']), rest) ∧
      (Stretch.mk pieces rest []).Fits width ∧ (Stretch.mk pieces rest []).word = word := by
  induction word using breakWord.induct width with
  | case1 word hwide lines rest hbreak ih =>
    have hcolumns := width.twenty_le
    have hdrop : word.drop (width.columns - 1) ≠ [] := by
      apply List.ne_nil_of_length_pos
      rw [List.length_drop]
      omega
    obtain ⟨pieces, left, hlines, hfits, hleft⟩ := ih hdrop
    have hwhole : (Stretch.mk (word.take (width.columns - 1) :: pieces) left []).word = word := by
      show (word.take (width.columns - 1) ++ pieces.flatten) ++ left = word
      rw [List.append_assoc]
      show word.take (width.columns - 1) ++ (Stretch.mk pieces left []).word = word
      rw [hleft, List.take_append_drop]
    refine ⟨word.take (width.columns - 1) :: pieces, left, ?_, ?_, hwhole⟩
    · unfold breakWord
      rw [if_pos hwide, hlines]
      rfl
    · refine ⟨?_, ?_, hfits.length_others, hfits.rest_ne_nil, hfits.length_row⟩
      · intro piece hpiece
        rcases List.mem_cons.1 hpiece with rfl | hpiece
        · rw [List.length_take]
          omega
        · exact hfits.length_pieces piece hpiece
      · rw [hwhole]
        exact iff_of_true (List.cons_ne_nil _ _) hwide
  | case2 word hnarrow =>
    refine ⟨[], word, breakWord_of_le (by omega), ⟨by simp, ?_, by simp, hword, ?_⟩, rfl⟩
    · exact iff_of_false (by simp) hnarrow
    · show (Text.joinWords [word]).length ≤ width.columns
      rw [Text.joinWords_singleton]
      omega

/-! ## Filling the lines -/

namespace Stretch

/-- The stretch with one more word. -/
def concat (stretch : Stretch) (word : Text) : Stretch :=
  { stretch with others := stretch.others ++ [word] }

theorem words_concat (stretch : Stretch) (word : Text) :
    (stretch.concat word).words = stretch.words ++ [word] := rfl

theorem joinWords_row_concat (stretch : Stretch) (word : Text) :
    Text.joinWords (stretch.concat word).row = Text.joinWords stretch.row ++ ' ' :: word :=
  Text.joinWords_concat (List.cons_ne_nil _ _) word

/-- A word may be added if it fits. -/
theorem Fits.concat {stretch : Stretch} (h : stretch.Fits width) {word : Text}
    (hword : (Text.joinWords stretch.row).length + 1 + word.length ≤ width.columns) :
    (stretch.concat word).Fits width where
  length_pieces := h.length_pieces
  broken_iff := h.broken_iff
  length_others := by
    intro other hother
    rcases List.mem_append.1 hother with hother | hother
    · exact h.length_others other hother
    · obtain rfl := List.mem_singleton.1 hother
      omega
  rest_ne_nil := h.rest_ne_nil
  length_row := by
    rw [joinWords_row_concat, List.length_append, List.length_cons]
    omega

end Stretch

/-- The rest of a paragraph is written in stretches, of which the first one goes on from the line
    that is being filled. -/
theorem exists_stretches_fillOnto {stretch : Stretch} (hstretch : stretch.Fits width)
    {words : List Text} (hwords : ∀ word ∈ words, word ≠ []) :
    ∃ stretches, WrittenIn width stretches (stretch.words ++ words)
      (stretch.pieces.map (· ++ ['-']) ++ fillOnto width (Text.joinWords stretch.row) words) := by
  induction words generalizing stretch with
  | nil =>
    refine ⟨[stretch], ⟨?_, ?_, ?_⟩⟩
    · rw [List.flatMap_singleton]
      rfl
    · rw [List.flatMap_singleton, List.append_nil]
    · simpa using hstretch
  | cons word words ih =>
    have hrest : ∀ word ∈ words, word ≠ [] :=
      fun word hword => hwords word (List.mem_cons_of_mem _ hword)
    unfold fillOnto
    split
    · next hfits =>
      have hlonger := ih (hstretch.concat hfits) hrest
      rw [stretch.joinWords_row_concat, stretch.words_concat, List.append_assoc] at hlonger
      exact hlonger
    · obtain ⟨pieces, rest, hbreak, hbroken, hword⟩ :=
        exists_broken width (hwords word List.mem_cons_self)
      obtain ⟨stretches, hlines, hshown, hfits⟩ := ih hbroken hrest
      rw [hbreak]
      refine ⟨stretch :: stretches, ⟨?_, ?_, ?_⟩⟩
      · rw [List.flatMap_cons, ← hlines, Stretch.lines]
        simp [Stretch.row]
      · rw [List.flatMap_cons, ← hshown, Stretch.words, Stretch.words, hword]
        rfl
      · exact List.forall_mem_cons.2 ⟨hstretch, hfits⟩

/-- A paragraph is written in stretches. -/
theorem exists_stretches_fillParagraph (width : Width) (paragraph : Text) :
    ∃ stretches, WrittenIn width stretches (Text.words paragraph)
      (fillParagraph width paragraph) := by
  have hwords : ∀ word ∈ Text.words paragraph, word ≠ [] :=
    fun word hword => (Text.isWord_of_mem_words hword).1
  unfold fillParagraph
  split
  · next hnone =>
    rw [hnone]
    exact ⟨[], ⟨rfl, rfl, by simp⟩⟩
  · next word words hsome =>
    rw [hsome] at hwords ⊢
    obtain ⟨pieces, rest, hbreak, hbroken, hword⟩ :=
      exists_broken width (hwords word List.mem_cons_self)
    have hwritten := exists_stretches_fillOnto hbroken
      fun word hword => hwords word (List.mem_cons_of_mem _ hword)
    rw [Stretch.words, hword] at hwritten
    rw [hbreak]
    simpa [Stretch.row] using hwritten

/-! ## The ends of the lines -/

/-- The line is not empty, and it neither starts nor ends with white space. -/
structure Trimmed (line : Text) : Prop where
  ne_nil : line ≠ []
  head : ∀ c ∈ line.head?, Text.isBlank c = false
  last : ∀ c ∈ line.getLast?, Text.isBlank c = false

theorem trimmed_of_isWord {word : Text} (h : Text.IsWord word) : Trimmed word where
  ne_nil := h.1
  head c hc := h.2 c (List.mem_of_mem_head? hc)
  last c hc := h.2 c (List.mem_of_mem_getLast? hc)

/-- Only the ends play a role. -/
theorem Trimmed.append {front back : Text} (hfront : Trimmed front) (hback : Trimmed back)
    (middle : Text) : Trimmed (front ++ (middle ++ back)) where
  ne_nil := by simp [hfront.ne_nil]
  head := by
    rw [List.head?_append_of_ne_nil _ hfront.ne_nil]
    exact hfront.head
  last := by
    rw [← List.append_assoc, List.getLast?_append_of_ne_nil _ hback.ne_nil]
    exact hback.last

theorem trimmed_joinWords {row : List Text} (hne : row ≠ [])
    (hrow : ∀ word ∈ row, Text.IsWord word) : Trimmed (Text.joinWords row) := by
  induction row with
  | nil => exact absurd rfl hne
  | cons word row ih =>
    have hword : Trimmed word := trimmed_of_isWord (hrow word List.mem_cons_self)
    by_cases hlast : row = []
    · rw [hlast, Text.joinWords_singleton]
      exact hword
    · rw [Text.joinWords_cons word hlast]
      exact hword.append (ih hlast fun other hother => hrow other (List.mem_cons_of_mem _ hother))
        [' ']

namespace Stretch

variable {stretch : Stretch}

/-- The pieces of a word are words. -/
theorem Fits.isWord_piece (h : stretch.Fits width) (hword : Text.IsWord stretch.word)
    {piece : Text} (hpiece : piece ∈ stretch.pieces) : Text.IsWord piece := by
  constructor
  · have hlength := h.length_pieces piece hpiece
    have hcolumns := width.twenty_le
    apply List.ne_nil_of_length_pos
    omega
  · intro c hc
    apply hword.2
    exact List.mem_append_left _ (List.mem_flatten_of_mem hpiece hc)

theorem Fits.isWord_rest (h : stretch.Fits width) (hword : Text.IsWord stretch.word) :
    Text.IsWord stretch.rest :=
  ⟨h.rest_ne_nil, fun c hc => hword.2 c (List.mem_append_right _ hc)⟩

/-- The lines of a stretch have the width, and no white space at their ends. -/
theorem Fits.trimmed_of_mem_lines (h : stretch.Fits width)
    (hwords : ∀ word ∈ stretch.words, Text.IsWord word) {line : Text}
    (hline : line ∈ stretch.lines) : Trimmed line ∧ line.length ≤ width.columns := by
  have hword : Text.IsWord stretch.word := hwords _ List.mem_cons_self
  rcases List.mem_append.1 hline with hline | hline
  · obtain ⟨piece, hpiece, rfl⟩ := List.mem_map.1 hline
    constructor
    · have hhyphen : Text.IsWord ['-'] := ⟨by simp, by simp⟩
      exact (trimmed_of_isWord (h.isWord_piece hword hpiece)).append (trimmed_of_isWord hhyphen) []
    · have hlength := h.length_pieces piece hpiece
      have hcolumns := width.twenty_le
      rw [List.length_append, List.length_singleton]
      omega
  · obtain rfl := List.mem_singleton.1 hline
    refine ⟨trimmed_joinWords (List.cons_ne_nil _ _) fun word hmem => ?_, h.length_row⟩
    rcases List.mem_cons.1 hmem with rfl | hmem
    · exact h.isWord_rest hword
    · exact hwords word (List.mem_cons_of_mem _ hmem)

end Stretch

/-! ## Descriptions -/

/-- The lines for one line of a description: an empty one if it is blank, or else its words in
    stretches. -/
structure Shows (width : Width) (line : Text) (block : List Text) : Prop where
  blank : (∀ c ∈ line, Text.isBlank c = true) → block = [[]]
  filled : (¬ ∀ c ∈ line, Text.isBlank c = true) →
    block ≠ [] ∧ (∀ shown ∈ block, Trimmed shown ∧ shown.length ≤ width.columns) ∧
      ∃ stretches, WrittenIn width stretches (Text.words line) block

theorem WrittenIn.trimmed_of_mem {stretches : List Stretch} {words lines : List Text}
    (h : WrittenIn width stretches words lines) (hwords : ∀ word ∈ words, Text.IsWord word)
    {line : Text} (hline : line ∈ lines) : Trimmed line ∧ line.length ≤ width.columns := by
  rw [h.lines_eq, List.mem_flatMap] at hline
  obtain ⟨stretch, hstretch, hline⟩ := hline
  refine (h.fits stretch hstretch).trimmed_of_mem_lines (fun word hword => hwords word ?_) hline
  rw [h.words_eq]
  exact List.mem_flatMap_of_mem hstretch hword

theorem WrittenIn.lines_ne_nil {stretches : List Stretch} {words lines : List Text}
    (h : WrittenIn width stretches words lines) (hwords : words ≠ []) : lines ≠ [] := by
  rintro rfl
  cases stretches with
  | nil => exact hwords h.words_eq
  | cons stretch stretches =>
    have hlines := h.lines_eq
    simp [Stretch.lines] at hlines

theorem shows_fillParagraph (width : Width) (line : Text) :
    Shows width line (if line.all Text.isBlank then [[]] else fillParagraph width line) := by
  constructor
  · intro hblank
    rw [if_pos (List.all_eq_true.2 hblank)]
  · intro hshown
    rw [if_neg (mt List.all_eq_true.1 hshown)]
    obtain ⟨stretches, hwritten⟩ := exists_stretches_fillParagraph width line
    refine ⟨hwritten.lines_ne_nil ?_, fun shown => hwritten.trimmed_of_mem ?_, stretches, hwritten⟩
    · exact mt Text.words_eq_nil_iff.1 hshown
    · exact fun word => Text.isWord_of_mem_words

/-- A carriage return at the end of a line, like other white space, plays no role. -/
theorem shows_concat_blank_iff {c : Char} (hc : Text.isBlank c = true) {line : Text}
    {block : List Text} : Shows width (line ++ [c]) block ↔ Shows width line block := by
  have hblank : (∀ d ∈ line ++ [c], Text.isBlank d = true) ↔ ∀ d ∈ line, Text.isBlank d = true := by
    rw [List.forall_mem_append, List.forall_mem_singleton]
    exact and_iff_left hc
  constructor
  · rintro ⟨hempty, hfilled⟩
    rw [hblank] at hempty hfilled
    rw [Text.words_concat_blank hc] at hfilled
    exact ⟨hempty, hfilled⟩
  · rintro ⟨hempty, hfilled⟩
    constructor
    · rwa [hblank]
    · rwa [hblank, Text.words_concat_blank hc]

/-- In front of the commands stand the lines for each line of the description, and an empty line.
    They have the width that is asked for, but at least twenty columns. With their line feeds, the
    lines of the description are the description, and what stands between the words of a line is
    white space. -/
theorem usageLines_description {ρ : Type} (columns : Nat) (name description : Text)
    (entries : List (Entry (Prepared ρ))) :
    (Width.ofNat columns).columns = max columns 20 ∧ description.HasLines description.lines ∧
      (∀ line ∈ description.lines, line.HasWords (Text.words line)) ∧
      ∃ blocks, List.Forall₂ (Shows (Width.ofNat columns)) description.lines blocks ∧
        usageLines (Width.ofNat columns) ⟨name, some description, entries⟩ =
          blocks.flatten ++ [] :: "Usage:".toList ::
            (Entry.leavesOfAll [name] entries).map usageLine := by
  refine ⟨rfl, Text.lines_eq_iff.1 rfl, fun line _ => Text.words_eq_iff.1 rfl,
    description.lines.map fun line =>
      if line.all Text.isBlank then [[]] else fillParagraph (Width.ofNat columns) line, ?_, ?_⟩
  · rw [List.forall₂_map_right_iff, List.forall₂_same]
    intro line _
    exact shows_fillParagraph _ line
  · unfold usageLines descriptionLines
    rw [Option.elim_some, List.flatMap_def, List.append_assoc]
    rfl

/-- Here a blank line stands in front of one with a word that is wider than the page, and the last
    line feed is missing. -/
theorem usageLines_description_of_wide_word : ∃ description : Text,
    description.lines = [['a', ' ', 'b'], [' '], List.replicate 24 'x' ++ [' ', 'y']] ∧
      (Width.ofNat 0).columns = 20 ∧ description.HasLines description.lines ∧
      (∀ line ∈ description.lines, line.HasWords (Text.words line)) ∧
      ∃ blocks, List.Forall₂ (Shows (Width.ofNat 0)) description.lines blocks ∧
        usageLines (Width.ofNat 0) ⟨['p'], some description, ([] : List (Entry (Prepared Unit)))⟩ =
          blocks.flatten ++ [[], "Usage:".toList] ∧
        blocks.flatten = [['a', ' ', 'b'], [], List.replicate 19 'x' ++ ['-'],
          List.replicate 5 'x' ++ [' ', 'y']] := by
  have hnarrow : fillParagraph (Width.ofNat 0) ['a', ' ', 'b'] = [['a', ' ', 'b']] := by
    have hwords : Text.words ['a', ' ', 'b'] = [['a'], ['b']] := by decide
    unfold fillParagraph
    rw [hwords]
    dsimp only
    rw [breakWord_of_le (by decide), fillOnto, if_pos (by decide)]
    rfl
  have hwide : fillParagraph (Width.ofNat 0) (List.replicate 24 'x' ++ [' ', 'y']) =
      [List.replicate 19 'x' ++ ['-'], List.replicate 5 'x' ++ [' ', 'y']] := by
    have hwords : Text.words (List.replicate 24 'x' ++ [' ', 'y']) =
        [List.replicate 24 'x', ['y']] := by decide
    have hbreak : breakWord (Width.ofNat 0) (List.replicate 24 'x') =
        ([List.replicate 19 'x' ++ ['-']], List.replicate 5 'x') := by
      unfold breakWord
      rw [if_pos (by decide), breakWord_of_le (by decide)]
      rfl
    unfold fillParagraph
    rw [hwords]
    dsimp only
    rw [hbreak, fillOnto, if_pos (by decide)]
    rfl
  have hlines :
      Text.lines (['a', ' ', 'b', '\n', ' ', '\n'] ++ List.replicate 24 'x' ++ [' ', 'y']) =
        [['a', ' ', 'b'], [' '], List.replicate 24 'x' ++ [' ', 'y']] := by decide
  obtain ⟨hwidth, hdivided, hwords, blocks, hshows, hpage⟩ := usageLines_description 0 ['p']
    (['a', ' ', 'b', '\n', ' ', '\n'] ++ List.replicate 24 'x' ++ [' ', 'y'])
    ([] : List (Entry (Prepared Unit)))
  refine ⟨_, hlines, hwidth, hdivided, hwords, blocks, hshows, hpage, ?_⟩
  unfold usageLines descriptionLines at hpage
  rw [Option.elim_some, hlines, List.append_assoc] at hpage
  rw [← List.append_cancel_right hpage]
  simp only [List.flatMap_cons, List.flatMap_nil]
  rw [if_neg (by decide), hnarrow, if_pos (by decide), if_neg (by decide), hwide]
  rfl

/-! ## The fewest lines -/

/-- The words, in order, on lines of this width, with single spaces between them. -/
structure LaidOut (width : Width) (words : List Text) (rows : List (List Text)) : Prop where
  flatten_eq : rows.flatten = words
  fits : ∀ row ∈ rows, (Text.joinWords row).length ≤ width.columns

/-- A line is at least as long as its first word, and as the line of its other words. -/
theorem le_length_joinWords_cons (word : Text) (row : List Text) :
    word.length ≤ (Text.joinWords (word :: row)).length ∧
      (Text.joinWords row).length ≤ (Text.joinWords (word :: row)).length := by
  by_cases hrow : row = []
  · rw [hrow, Text.joinWords_singleton]
    exact ⟨Nat.le_refl _, Nat.zero_le _⟩
  · rw [Text.joinWords_cons word hrow, List.length_append, List.length_cons]
    omega

/-- The first two words may be taken as one. -/
theorem joinWords_cons_cons (first second : Text) (row : List Text) :
    Text.joinWords (first :: second :: row) =
      Text.joinWords ((first ++ ' ' :: second) :: row) := by
  rw [Text.joinWords_cons first (List.cons_ne_nil _ _)]
  by_cases hrow : row = []
  · rw [hrow, Text.joinWords_singleton, Text.joinWords_singleton]
  · rw [Text.joinWords_cons second hrow, Text.joinWords_cons _ hrow, List.append_assoc,
      List.cons_append]

/-- Words that fit on the line that is being filled are put there. -/
theorem fillOnto_append {current : Text} {row : List Text}
    (hrow : (Text.joinWords (current :: row)).length ≤ width.columns) (words : List Text) :
    fillOnto width current (row ++ words) =
      fillOnto width (Text.joinWords (current :: row)) words := by
  induction row generalizing current with
  | nil => rw [Text.joinWords_singleton, List.nil_append]
  | cons word row ih =>
    rw [joinWords_cons_cons] at hrow ⊢
    have hfits := (le_length_joinWords_cons (current ++ ' ' :: word) row).1
    rw [List.length_append, List.length_cons] at hfits
    rw [List.cons_append, fillOnto, if_pos (by omega), ih hrow]

/-- Words that fit on one line need at most one line more, wherever they start. -/
theorem exists_length_fillOnto_append_le {row : List Text}
    (hrow : (Text.joinWords row).length ≤ width.columns) (current : Text) (words : List Text) :
    ∃ next, (fillOnto width current (row ++ words)).length ≤
      (fillOnto width next words).length + 1 := by
  induction row generalizing current with
  | nil => exact ⟨current, Nat.le_succ _⟩
  | cons word row ih =>
    obtain ⟨hword, hrest⟩ := le_length_joinWords_cons word row
    rw [List.cons_append, fillOnto]
    split
    · exact ih (by omega) (current ++ ' ' :: word)
    · -- the word opens a line, and the other ones fit behind it
      refine ⟨Text.joinWords (word :: row), ?_⟩
      rw [breakWord_of_le (by omega)]
      show (fillOnto width word (row ++ words)).length + 1 ≤ _
      have hfilled := congrArg List.length (fillOnto_append hrow words)
      omega

/-- The lines of any layout are enough for the rest of a paragraph, but for the line that is being
    filled. -/
theorem length_fillOnto_flatten_le {rows : List (List Text)}
    (hrows : ∀ row ∈ rows, (Text.joinWords row).length ≤ width.columns) (current : Text) :
    (fillOnto width current rows.flatten).length ≤ rows.length + 1 := by
  induction rows generalizing current with
  | nil => exact Nat.le_refl 1
  | cons row rows ih =>
    obtain ⟨hrow, hrest⟩ := List.forall_mem_cons.1 hrows
    obtain ⟨next, hnext⟩ := exists_length_fillOnto_append_le hrow current rows.flatten
    have hlater := ih hrest next
    rw [List.flatten_cons, List.length_cons]
    omega

/-- The first word takes the first line that holds one. -/
theorem length_fillOnto_le {rows : List (List Text)} {word : Text} {words : List Text}
    (hrows : ∀ row ∈ rows, (Text.joinWords row).length ≤ width.columns)
    (hflatten : rows.flatten = word :: words) :
    (fillOnto width word words).length ≤ rows.length := by
  induction rows with
  | nil => cases hflatten
  | cons row rows ih =>
    obtain ⟨hrow, hrest⟩ := List.forall_mem_cons.1 hrows
    rw [List.flatten_cons] at hflatten
    rw [List.length_cons]
    cases row with
    | nil =>
      have hlater := ih hrest hflatten
      omega
    | cons first row =>
      rw [List.cons_append] at hflatten
      obtain ⟨rfl, rfl⟩ := List.cons.inj hflatten
      rw [fillOnto_append hrow]
      exact length_fillOnto_flatten_le hrest _

/-- Where no word is broken, a stretch is one line of its words. -/
theorem Stretch.Fits.unbroken {stretch : Stretch} (h : stretch.Fits width)
    (hword : stretch.word.length ≤ width.columns) :
    stretch.words = stretch.row ∧ stretch.lines = [Text.joinWords stretch.row] := by
  have hpieces : stretch.pieces = [] := by
    by_contra hbroken
    have hwide := h.broken_iff.1 hbroken
    omega
  simp [words, lines, row, word, hpieces]

/-- Where no word is broken, the lines are a layout of the words. -/
theorem WrittenIn.laidOut {stretches : List Stretch} {words lines : List Text}
    (h : WrittenIn width stretches words lines)
    (hwords : ∀ word ∈ words, word.length ≤ width.columns) :
    LaidOut width words (stretches.map Stretch.row) ∧
      lines = (stretches.map Stretch.row).map Text.joinWords := by
  have hunbroken : ∀ stretch ∈ stretches, stretch.words = stretch.row ∧
      stretch.lines = [Text.joinWords stretch.row] := by
    intro stretch hstretch
    apply (h.fits stretch hstretch).unbroken
    apply hwords
    rw [h.words_eq]
    exact List.mem_flatMap_of_mem hstretch List.mem_cons_self
  refine ⟨⟨?_, ?_⟩, ?_⟩
  · rw [h.words_eq, ← List.flatMap_def]
    exact (List.flatMap_congr fun stretch hstretch => (hunbroken stretch hstretch).1).symm
  · intro row hrow
    obtain ⟨stretch, hstretch, rfl⟩ := List.mem_map.1 hrow
    exact (h.fits stretch hstretch).length_row
  · rw [h.lines_eq, List.map_map, List.map_eq_flatMap]
    exact List.flatMap_congr fun stretch hstretch => (hunbroken stretch hstretch).2

/-- If every word fits on a line, the lines of a paragraph are a layout of its words, and no layout
    has fewer lines. -/
theorem fillParagraph_fewest (paragraph : Text)
    (hwords : ∀ word ∈ Text.words paragraph, word.length ≤ width.columns) :
    (∃ rows, LaidOut width (Text.words paragraph) rows ∧
        fillParagraph width paragraph = rows.map Text.joinWords) ∧
      ∀ rows, LaidOut width (Text.words paragraph) rows →
        (fillParagraph width paragraph).length ≤ rows.length := by
  constructor
  · obtain ⟨stretches, hwritten⟩ := exists_stretches_fillParagraph width paragraph
    exact ⟨stretches.map Stretch.row, hwritten.laidOut hwords⟩
  · intro rows hrows
    unfold fillParagraph
    split
    · exact Nat.zero_le _
    · next word words hsome =>
      rw [hsome] at hwords hrows
      rw [breakWord_of_le (hwords word List.mem_cons_self)]
      exact length_fillOnto_le hrows.fits hrows.flatten_eq

/-- Here the first two words fill a line of twenty columns to the last one, so the third word needs
    another one. -/
theorem fillParagraph_fewest_of_full_line :
    ∃ paragraph : Text, (∀ word ∈ Text.words paragraph, word.length ≤ 20) ∧
      fillParagraph (Width.ofNat 0) paragraph =
        [List.replicate 10 'a' ++ ' ' :: List.replicate 9 'b', ['c']] ∧
      ∀ rows, LaidOut (Width.ofNat 0) (Text.words paragraph) rows → 2 ≤ rows.length := by
  have hwords : ∀ word ∈ Text.words
      (List.replicate 10 'a' ++ ' ' :: (List.replicate 9 'b' ++ [' ', 'c'])),
      word.length ≤ (Width.ofNat 0).columns := by decide
  have hlines : fillParagraph (Width.ofNat 0)
      (List.replicate 10 'a' ++ ' ' :: (List.replicate 9 'b' ++ [' ', 'c'])) =
        [List.replicate 10 'a' ++ ' ' :: List.replicate 9 'b', ['c']] := by
    have hsplit : Text.words
        (List.replicate 10 'a' ++ ' ' :: (List.replicate 9 'b' ++ [' ', 'c'])) =
          [List.replicate 10 'a', List.replicate 9 'b', ['c']] := by decide
    unfold fillParagraph
    rw [hsplit]
    dsimp only
    rw [breakWord_of_le (by decide), fillOnto, if_pos (by decide), fillOnto, if_neg (by decide),
      breakWord_of_le (by decide)]
    rfl
  refine ⟨_, hwords, hlines, fun rows hrows => ?_⟩
  have hfewest := (fillParagraph_fewest _ hwords).2 rows hrows
  rw [hlines] at hfewest
  exact hfewest

end CommandLine

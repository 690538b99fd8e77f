import Mathlib.Data.List.Basic
import CommandLine.Registry.Read

/-!
# Words and lines that are put together and taken apart

A text is divided into its lines in one way, and into its words. Words between single spaces are
read back as they are, and so are pieces between bars. The separator of a description is found at
the first word `--` that another word follows.

Results:
* `splitAt_intercalate`: pieces without the separator are the pieces of the joined text.
* `lines_eq_iff`: the lines of a text, ended by line feeds, are the text.
* `words_eq_iff`: the words of a text are what stands between white space.
* `words_joinWords`: the words of joined words are these words.
* `words_separateDescription`: the words in front of the separator of joined words.
-/

namespace CommandLine.Text

/-- A word: not empty, and without white space. -/
def IsWord (word : Text) : Prop := word ≠ [] ∧ ∀ c ∈ word, isBlank c = false

/-- The words, each with a space behind it. -/
def spaced (tokens : List Text) : Text := tokens.flatMap (· ++ [' '])

/-! ## Pieces -/

theorem splitAt_of_not_mem {separator : Char} {piece : Text} (h : separator ∉ piece) :
    splitAt separator piece = (piece, []) := by
  induction piece with
  | nil => rfl
  | cons c cs ih =>
    rw [List.mem_cons, not_or] at h
    rw [splitAt, ih h.2]
    simp only [if_neg (Ne.symm h.1)]

theorem splitAt_append {separator : Char} {piece : Text} (h : separator ∉ piece) (text : Text) :
    splitAt separator (piece ++ separator :: text) =
      (piece, (splitAt separator text).1 :: (splitAt separator text).2) := by
  induction piece with
  | nil => simp [splitAt]
  | cons c cs ih =>
    rw [List.mem_cons, not_or] at h
    rw [List.cons_append, splitAt, ih h.2]
    simp only [if_neg (Ne.symm h.1)]

/-- Pieces without the separator are read back from the joined text. -/
theorem splitAt_intercalate {separator : Char} (piece : Text) (pieces : List Text)
    (h : ∀ p ∈ piece :: pieces, separator ∉ p) :
    splitAt separator ([separator].intercalate (piece :: pieces)) = (piece, pieces) := by
  induction pieces generalizing piece with
  | nil =>
    rw [List.intercalate_singleton]
    exact splitAt_of_not_mem (h piece (by simp))
  | cons next pieces ih =>
    have hnext : ∀ p ∈ next :: pieces, separator ∉ p :=
      fun p hp => h p (List.mem_cons_of_mem _ hp)
    rw [List.intercalate_cons_cons, List.append_assoc, List.singleton_append,
      splitAt_append (h piece (by simp)), ih next hnext]

/-- The pieces, each with a separator behind it, are the text with one more separator. -/
theorem flatMap_splitAt (separator : Char) (text : Text) :
    ((splitAt separator text).1 :: (splitAt separator text).2).flatMap (· ++ [separator]) =
      text ++ [separator] := by
  induction text with
  | nil => rfl
  | cons c cs ih =>
    rw [List.flatMap_cons] at ih
    by_cases h : c = separator
    · simp [splitAt, h, ih]
    · simp only [splitAt, if_neg h, List.flatMap_cons, List.cons_append, ih]

theorem splitAt_flatMap_append {separator : Char} {pieces : List Text} {last : Text}
    (hpieces : ∀ p ∈ pieces, separator ∉ p) (hlast : separator ∉ last) :
    (splitAt separator (pieces.flatMap (· ++ [separator]) ++ last)).1 ::
      (splitAt separator (pieces.flatMap (· ++ [separator]) ++ last)).2 = pieces ++ [last] := by
  induction pieces with
  | nil => rw [List.flatMap_nil, List.nil_append, splitAt_of_not_mem hlast, List.nil_append]
  | cons piece pieces ih =>
    obtain ⟨hpiece, hpieces⟩ := List.forall_mem_cons.1 hpieces
    rw [List.flatMap_cons, List.append_assoc, List.append_assoc, List.singleton_append,
      splitAt_append hpiece, ih hpieces, List.cons_append]

theorem mem_intercalate {separator c : Char} {piece : Text} {pieces : List Text}
    (hpiece : piece ∈ pieces) (hc : c ∈ piece) : c ∈ [separator].intercalate pieces := by
  induction pieces with
  | nil => simp at hpiece
  | cons first pieces ih =>
    cases pieces with
    | nil =>
      obtain rfl : piece = first := by simpa using hpiece
      simpa using hc
    | cons next rest =>
      rw [List.intercalate_cons_cons, List.mem_append, List.mem_append]
      rcases List.mem_cons.1 hpiece with rfl | hpiece
      · exact .inl (.inl hc)
      · exact .inr (ih hpiece)

theorem exists_of_mem_intercalate {separator c : Char} {pieces : List Text}
    (h : c ∈ [separator].intercalate pieces) : c = separator ∨ ∃ piece ∈ pieces, c ∈ piece := by
  induction pieces with
  | nil => simp at h
  | cons first pieces ih =>
    cases pieces with
    | nil => exact .inr ⟨first, by simp, by simpa using h⟩
    | cons next rest =>
      rw [List.intercalate_cons_cons, List.mem_append, List.mem_append] at h
      rcases h with (h | h) | h
      · exact .inr ⟨first, by simp, h⟩
      · exact .inl (by simpa using h)
      · rcases ih h with h | ⟨piece, hpiece, hc⟩
        · exact .inl h
        · exact .inr ⟨piece, List.mem_cons_of_mem _ hpiece, hc⟩

/-! ## Lines -/

/-- The text, divided into lines: none holds a line feed, and one ends each of them. Only behind a
    last line that is not empty the line feed may be missing. -/
structure HasLines (text : Text) (parts : List Text) : Prop where
  free : ∀ part ∈ parts, '\n' ∉ part
  ended : text = parts.flatMap (· ++ ['\n']) ∨
    text ++ ['\n'] = parts.flatMap (· ++ ['\n']) ∧ parts.getLast? ≠ some []

theorem hasLines_lines (text : Text) : text.HasLines text.lines := by
  obtain ⟨hfirst, hrest⟩ := splitAt_free '\n' text
  have hfree : ∀ p ∈ (splitAt '\n' text).1 :: (splitAt '\n' text).2, '\n' ∉ p :=
    List.forall_mem_cons.2 ⟨hfirst, hrest⟩
  have hended := flatMap_splitAt '\n' text
  unfold lines
  generalize splitAt '\n' text = pieces at hfree hended
  dsimp only
  split
  · next hlast =>
    obtain ⟨front, hfront⟩ := List.getLast?_eq_some_iff.1 hlast
    rw [hfront, List.flatMap_append] at hended
    rw [hfront] at hfree
    rw [hfront, List.dropLast_concat]
    refine ⟨fun part hpart => hfree part (List.mem_append_left _ hpart), .inl ?_⟩
    exact (List.append_cancel_right hended).symm
  · next hlast => exact ⟨hfree, .inr ⟨hended.symm, hlast⟩⟩

theorem lines_flatMap_append {parts : List Text} {last : Text}
    (hparts : ∀ part ∈ parts, '\n' ∉ part) (hlast : '\n' ∉ last) :
    lines (parts.flatMap (· ++ ['\n']) ++ last) = if last = [] then parts else parts ++ [last] := by
  unfold lines
  simp only [splitAt_flatMap_append hparts hlast, List.getLast?_concat, List.dropLast_concat,
    Option.some.injEq]

/-- A text is divided into its lines in one way. -/
theorem lines_eq_iff {text : Text} {parts : List Text} :
    text.lines = parts ↔ text.HasLines parts := by
  constructor
  · rintro rfl
    exact hasLines_lines text
  · rintro ⟨hfree, rfl | ⟨hended, hlast⟩⟩
    · have hlines := lines_flatMap_append hfree List.not_mem_nil
      rwa [List.append_nil, if_pos rfl] at hlines
    · rcases List.eq_nil_or_concat' parts with rfl | ⟨front, last, rfl⟩
      · simp at hended
      · rw [List.flatMap_append, List.flatMap_singleton, ← List.append_assoc] at hended
        rw [List.getLast?_concat, ne_eq, Option.some.injEq] at hlast
        obtain ⟨hfront, hfree⟩ := List.forall_mem_append.1 hfree
        rw [List.append_cancel_right hended, lines_flatMap_append hfront (hfree last (by simp)),
          if_neg hlast]

/-! ## Words -/

theorem isWord_of_mem_words {text word : Text} (h : word ∈ words text) : IsWord word :=
  words_free h

theorem IsWord.exists_cons {word : Text} (h : IsWord word) :
    ∃ c cs, word = c :: cs ∧ isBlank c = false ∧ ∀ d ∈ cs, isBlank d = false := by
  obtain ⟨c, cs, rfl⟩ := List.exists_cons_of_ne_nil h.1
  exact ⟨c, cs, rfl, h.2 c List.mem_cons_self, fun d hd => h.2 d (List.mem_cons_of_mem _ hd)⟩

@[simp] theorem spaced_nil : spaced [] = [] := rfl

theorem spaced_cons (token : Text) (tokens : List Text) :
    spaced (token :: tokens) = token ++ ' ' :: spaced tokens := by
  simp [spaced]

theorem joinWords_cons (token : Text) {tokens : List Text} (h : tokens ≠ []) :
    joinWords (token :: tokens) = token ++ ' ' :: joinWords tokens := by
  obtain ⟨next, rest, rfl⟩ := List.exists_cons_of_ne_nil h
  simp only [joinWords, List.intercalate_cons_cons, List.append_assoc, List.singleton_append]

/-- Joining puts a space behind every word but the last. -/
theorem joinWords_append (front : List Text) {tokens : List Text} (h : tokens ≠ []) :
    joinWords (front ++ tokens) = spaced front ++ joinWords tokens := by
  induction front with
  | nil => rfl
  | cons token front ih =>
    rw [List.cons_append, joinWords_cons token (by simp [h]), ih, spaced_cons, List.append_assoc,
      List.cons_append]

@[simp] theorem joinWords_singleton (word : Text) : joinWords [word] = word :=
  List.intercalate_singleton

/-- One more word behind the others. -/
theorem joinWords_concat {row : List Text} (hrow : row ≠ []) (word : Text) :
    joinWords (row ++ [word]) = joinWords row ++ ' ' :: word := by
  induction row with
  | nil => exact absurd rfl hrow
  | cons first row ih =>
    rw [List.cons_append, joinWords_cons first (by simp)]
    by_cases hrest : row = []
    · simp [hrest]
    · rw [ih hrest, joinWords_cons first hrest, List.append_assoc, List.cons_append]

theorem extendWords_ne_nil (c : Char) (rest : Text) (found : List Text) :
    extendWords c rest found ≠ [] := by
  unfold extendWords
  split
  · split <;> simp
  · simp

/-- Only white space has no words. -/
theorem words_eq_nil_iff {text : Text} : words text = [] ↔ ∀ c ∈ text, isBlank c = true := by
  induction text with
  | nil => simp
  | cons c cs ih =>
    rw [List.forall_mem_cons, ← ih]
    by_cases hc : isBlank c = true
    · rw [words_blank hc]
      simp [hc]
    · rw [words, if_neg hc]
      simp [hc, extendWords_ne_nil]

/-- White space at the end plays no role. -/
theorem words_concat_blank {c : Char} (hc : isBlank c = true) (text : Text) :
    words (text ++ [c]) = words text := by
  induction text with
  | nil =>
    show words [c] = words []
    rw [words_blank hc]
  | cons d ds ih =>
    rw [List.cons_append]
    unfold words
    rw [ih]
    cases ds with
    | nil => rfl
    | cons e es =>
      cases words (e :: es) with
      | nil => rfl
      | cons _ _ => rfl

theorem extendWords_of_head {c : Char} {rest : Text} (h : ∀ d ∈ rest.head?, isBlank d = true)
    (found : List Text) : extendWords c rest found = [c] :: found := by
  unfold extendWords
  split
  · next d _ _ _ => rw [if_pos (h d (by simp))]
  · rfl

/-- A word ends where the text ends or white space follows. -/
theorem words_append_of_isWord {word : Text} (h : IsWord word) {text : Text}
    (htext : ∀ d ∈ text.head?, isBlank d = true) : words (word ++ text) = word :: words text := by
  obtain ⟨hne, hword⟩ := h
  induction word with
  | nil => exact absurd rfl hne
  | cons c cs ih =>
    have hc : isBlank c = false := hword c (by simp)
    rw [List.cons_append, words, if_neg (by simp [hc])]
    cases cs with
    | nil => rw [List.nil_append, extendWords_of_head htext]
    | cons d ds =>
      have hd : isBlank d = false := hword d (by simp)
      rw [ih (by simp) (fun x hx => hword x (List.mem_cons_of_mem _ hx))]
      simp [extendWords, hd]

/-- The text, divided into words: white space stands between each two of them, and may stand in
    front of the first one and behind the last one. -/
inductive HasWords : Text → List Text → Prop
  | nil : HasWords [] []
  | blank {c : Char} {text : Text} {parts : List Text} (hc : isBlank c = true)
      (h : HasWords text parts) : HasWords (c :: text) parts
  | word {word text : Text} {parts : List Text} (hword : IsWord word)
      (htext : ∀ c ∈ text.head?, isBlank c = true) (h : HasWords text parts) :
      HasWords (word ++ text) (word :: parts)

/-- A character in front starts a word, or it extends the first one. -/
theorem HasWords.extend {c : Char} {text : Text} {parts : List Text} (hc : isBlank c = false)
    (h : HasWords text parts) : HasWords (c :: text) (extendWords c text parts) := by
  have hletter : IsWord [c] := ⟨by simp, by simpa using hc⟩
  cases h with
  | nil => exact .word hletter (by simp) .nil
  | blank hd h =>
    rw [extendWords_of_head (by simpa using hd)]
    exact .word hletter (by simpa using hd) (.blank hd h)
  | word hword htext h =>
    have hlonger : IsWord (c :: _) := ⟨by simp, List.forall_mem_cons.2 ⟨hc, hword.2⟩⟩
    obtain ⟨d, ds, rfl, hd, -⟩ := hword.exists_cons
    rw [List.cons_append, extendWords, if_neg (by simp [hd])]
    exact .word hlonger htext h

theorem hasWords_words (text : Text) : text.HasWords (words text) := by
  induction text with
  | nil => exact .nil
  | cons c cs ih =>
    rw [words]
    split
    · next hc => exact .blank hc ih
    · next hc => exact ih.extend (by simpa using hc)

/-- A text is divided into words in one way. -/
theorem words_eq_iff {text : Text} {parts : List Text} :
    words text = parts ↔ text.HasWords parts := by
  constructor
  · rintro rfl
    exact hasWords_words text
  · intro h
    induction h with
    | nil => rfl
    | blank hc _ ih => rw [words_blank hc, ih]
    | word hword htext _ ih => rw [words_append_of_isWord hword htext, ih]

theorem words_of_isWord {word : Text} (h : IsWord word) : words word = [word] := by
  have hend : ∀ d ∈ List.head? ([] : Text), isBlank d = true := by simp
  have := words_append_of_isWord h hend
  rwa [List.append_nil] at this

theorem words_spaced_append {tokens : List Text} (h : ∀ token ∈ tokens, IsWord token)
    (text : Text) : words (spaced tokens ++ text) = tokens ++ words text := by
  induction tokens with
  | nil => rfl
  | cons token tokens ih =>
    rw [spaced_cons, List.append_assoc, List.cons_append,
      words_append_of_isWord (h token (by simp)) (by simp), words_blank isBlank_space,
      ih (fun t ht => h t (List.mem_cons_of_mem _ ht)), List.cons_append]

/-- Words between single spaces are read back. -/
theorem words_joinWords {tokens : List Text} (h : ∀ token ∈ tokens, IsWord token) :
    words (joinWords tokens) = tokens := by
  rcases List.eq_nil_or_concat tokens with rfl | ⟨front, last, rfl⟩
  · rfl
  · have hlast : IsWord last := h last (by simp)
    have hfront : ∀ token ∈ front, IsWord token := fun t ht => h t (by simp [ht])
    rw [List.concat_eq_append, joinWords_append front (by simp), words_spaced_append hfront,
      joinWords, List.intercalate_singleton, words_of_isWord hlast]

/-! ## The separator of a description -/

/-- No separator starts inside a word. -/
theorem separateDescription_inside {word : Text} (h : ∀ c ∈ word, isBlank c = false)
    (text : Text) :
    separateDescription false (word ++ text) =
      (word ++ (separateDescription false text).1, (separateDescription false text).2) := by
  induction word with
  | nil => rfl
  | cons c cs ih =>
    rw [List.cons_append, separateDescription,
      h c (by simp), ih (fun x hx => h x (List.mem_cons_of_mem _ hx))]
    simp

theorem separateDescription_blank {c : Char} (hc : isBlank c = true) (boundary : Bool)
    (text : Text) :
    separateDescription boundary (c :: text) =
      (c :: (separateDescription true text).1, (separateDescription true text).2) := by
  have hseparator : ['-', '-', ' '].isPrefixOf (c :: text) = false := by
    have hne : '-' ≠ c := by
      rintro rfl
      exact absurd hc (by decide)
    simp [List.isPrefixOf, hne]
  rw [separateDescription, hseparator, Bool.and_false, if_neg (by simp), hc]

/-- The separator starts with the word `--`. -/
theorem eq_of_isPrefixOf_append {word text : Text} (h : IsWord word)
    (htext : ∀ c ∈ text.head?, isBlank c = true)
    (hseparator : ['-', '-', ' '].isPrefixOf (word ++ text) = true) : word = ['-', '-'] := by
  rw [List.isPrefixOf_iff_prefix] at hseparator
  obtain ⟨rest, hrest⟩ := hseparator
  match word, h with
  | [], h => exact absurd rfl h.1
  | [_], _ =>
    simp only [List.cons_append, List.nil_append, List.cons.injEq] at hrest
    obtain ⟨-, rfl⟩ := hrest
    exact absurd (htext '-' rfl) (by decide)
  | [_, _], _ =>
    simp only [List.cons_append, List.nil_append, List.cons.injEq] at hrest
    obtain ⟨rfl, rfl, -⟩ := hrest
    rfl
  | _ :: _ :: c :: _, h =>
    simp only [List.cons_append, List.nil_append, List.cons.injEq] at hrest
    obtain ⟨-, -, rfl, -⟩ := hrest
    have := h.2 ' ' (by simp)
    simp at this

/-- A word other than `--` is no separator. -/
theorem separateDescription_word_append {word text : Text} (h : IsWord word)
    (hne : word ≠ ['-', '-']) (htext : ∀ c ∈ text.head?, isBlank c = true) :
    separateDescription true (word ++ text) =
      (word ++ (separateDescription false text).1, (separateDescription false text).2) := by
  have hseparator := mt (eq_of_isPrefixOf_append h htext) hne
  obtain ⟨c, cs, rfl, hc, hcs⟩ := h.exists_cons
  rw [List.cons_append] at hseparator ⊢
  rw [separateDescription, if_neg (by simpa using hseparator), hc, separateDescription_inside hcs]
  rfl

/-- Words other than `--` stay in front of the separator. -/
theorem separateDescription_spaced {tokens : List Text}
    (h : ∀ token ∈ tokens, IsWord token ∧ token ≠ ['-', '-']) (text : Text) :
    separateDescription true (spaced tokens ++ text) =
      (spaced tokens ++ (separateDescription true text).1, (separateDescription true text).2) := by
  induction tokens with
  | nil => rfl
  | cons token tokens ih =>
    obtain ⟨hword, hne⟩ := h token (by simp)
    have hspaced := ih fun other hother => h other (List.mem_cons_of_mem _ hother)
    rw [spaced_cons, List.append_assoc, List.cons_append,
      separateDescription_word_append hword hne (by simp), separateDescription_blank isBlank_space,
      hspaced]
    simp

/-- The separator is the word `--` with a space behind it. -/
theorem separateDescription_separator (text : Text) :
    separateDescription true (['-', '-'] ++ ' ' :: text) = ([], some text) := by
  simp [separateDescription, List.isPrefixOf]

/-- A last word is no separator. -/
theorem separateDescription_word {word : Text} (h : IsWord word) :
    separateDescription true word = (word, none) := by
  by_cases hdash : word = ['-', '-']
  · rw [hdash]
    rfl
  · have hend : ∀ c ∈ List.head? ([] : Text), isBlank c = true := by simp
    have hword := separateDescription_word_append h hdash hend
    rw [List.append_nil] at hword
    rw [hword]
    show (word ++ [], none) = (word, none)
    rw [List.append_nil]

/-- Words other than `--` are no separator, and neither is a last word. -/
theorem separateDescription_joinWords {front : List Text} {last : Text}
    (hfront : ∀ token ∈ front, IsWord token ∧ token ≠ ['-', '-']) (hlast : IsWord last) :
    separateDescription true (joinWords (front ++ [last])) =
      (joinWords (front ++ [last]), none) := by
  rw [joinWords_append front (by simp), separateDescription_spaced hfront, joinWords,
    List.intercalate_singleton, separateDescription_word hlast]

/-- The text in front of the separator of joined words: it ends at the first word `--`, if there is
    one that is not the last word. -/
theorem words_separateDescription {front rest : List Text} {token : Text}
    (hfront : ∀ token ∈ front, IsWord token ∧ token ≠ ['-', '-']) (htoken : IsWord token)
    {before : Text} {description : Option Text}
    (h : separateDescription true (joinWords (front ++ token :: rest)) = (before, description)) :
    (words before = front ∧ description.isSome = true) ∨
      ∃ others, words before = front ++ token :: others := by
  have hwords : ∀ token ∈ front, IsWord token := fun t ht => (hfront t ht).1
  rw [joinWords_append front (by simp), separateDescription_spaced hfront] at h
  obtain ⟨rfl, rfl⟩ := Prod.mk.inj h
  rw [words_spaced_append hwords]
  rcases List.eq_nil_or_concat' rest with rfl | ⟨inner, last, hrest⟩
  · rw [joinWords, List.intercalate_singleton, separateDescription_word htoken]
    exact .inr ⟨[], by rw [words_of_isWord htoken]⟩
  · rw [joinWords_cons token (show rest ≠ [] by simp [hrest])]
    by_cases hdash : token = ['-', '-']
    · rw [hdash, separateDescription_separator]
      exact .inl ⟨by simp, rfl⟩
    · have hone : ∀ t ∈ [token], IsWord t ∧ t ≠ ['-', '-'] := by simp [htoken, hdash]
      have hspaced : token ++ ' ' :: joinWords rest = spaced [token] ++ joinWords rest := by
        simp [spaced]
      rw [hspaced, separateDescription_spaced hone, words_spaced_append (by simpa using htoken)]
      exact .inr ⟨_, rfl⟩

end CommandLine.Text

import CommandLine.Except
import CommandLine.Proofs.Usage.Paragraph

/-!
# Breaking words at positions of 64 bits

A word is broken in a loop that keeps one position, up to which the word was broken off. Positions,
lengths and widths are numbers of 64 bits there: a difference fails if it is negative, a sum if it
is too large, and a stretch of the word if it does not lie in the word. The loop never fails. As
long as it goes on, more than a line is left of the word, so the next position lies in front of the
end, and it lies behind the last one because a line has room for more than a hyphen.

Results:
* `Breaking.step_of_wide`, `Breaking.step_of_narrow`: what one step does.
* `Breaking.ends_breakWord`: from every position on, the loop ends as `breakWord` does.
* `two_le_length_rest`: what is left of a broken word.
* `Breaking.ends_in_range`: how a word is broken at every width that can be asked for.
-/

namespace CommandLine

/-! ## Positions -/

/-- Why a computation with positions fails. -/
inductive Fault where
  /-- A difference below zero. -/
  | negative
  /-- A sum that does not have 64 bits. -/
  | tooLarge
  /-- A stretch that does not lie in the word. -/
  | outside
  deriving DecidableEq, Repr

namespace Position

/-- The difference of two positions. -/
def sub (a b : UInt64) : Except Fault UInt64 :=
  if b ≤ a then .ok (a - b) else .error .negative

/-- The sum of two positions. -/
def add (a b : UInt64) : Except Fault UInt64 :=
  if a.toNat + b.toNat < UInt64.size then .ok (a + b) else .error .tooLarge

/-- The characters of the word from one position up to another one. -/
def slice (word : Text) (left right : UInt64) : Except Fault Text :=
  if left ≤ right ∧ right.toNat ≤ word.length then
    .ok ((word.take right.toNat).drop left.toNat)
  else .error .outside

theorem sub_ofNat {a b : Nat} (ha : a < UInt64.size) (hle : b ≤ a) :
    sub (.ofNat a) (.ofNat b) = .ok (.ofNat (a - b)) := by
  have hb : b < UInt64.size := by omega
  unfold sub
  rw [if_pos ((UInt64.ofNat_le_iff_le hb ha).2 hle), UInt64.ofNat_sub hle]

theorem add_ofNat {a b : Nat} (hsum : a + b < UInt64.size) :
    add (.ofNat a) (.ofNat b) = .ok (.ofNat (a + b)) := by
  unfold add
  rw [UInt64.toNat_ofNat_of_lt' (by omega), UInt64.toNat_ofNat_of_lt' (by omega), if_pos hsum,
    UInt64.ofNat_add]

theorem slice_ofNat {word : Text} {left right : Nat} (hlength : word.length < UInt64.size)
    (hle : left ≤ right) (hright : right ≤ word.length) :
    slice word (.ofNat left) (.ofNat right) = .ok ((word.take right).drop left) := by
  unfold slice
  rw [UInt64.toNat_ofNat_of_lt' (by omega), UInt64.toNat_ofNat_of_lt' (by omega),
    if_pos ⟨(UInt64.ofNat_le_iff_le (by omega) (by omega)).2 hle, hright⟩]

end Position

/-! ## The loop -/

/-- A word that is being broken: the position up to which it was broken off, and the lines that
    were broken off. -/
structure Breaking where
  left : UInt64
  lines : List Text

namespace Breaking

/-- What one step leads to. -/
inductive Next where
  /-- Another step. -/
  | again (state : Breaking)
  /-- The end, with the lines that were broken off and the rest of the word. -/
  | finished (lines : List Text) (rest : Text)

/-- Breaks off one more line if the rest of the word is wider than a line. -/
def step (width : UInt64) (word : Text) (state : Breaking) : Except Fault Next := do
  let length := UInt64.ofNat word.length
  let remaining ← Position.sub length state.left
  if width < remaining then
    let sum ← Position.add state.left width
    let right ← Position.sub sum 1
    let piece ← Position.slice word state.left right
    return .again ⟨right, state.lines ++ [piece ++ ['-']]⟩
  else
    let rest ← Position.slice word state.left length
    return .finished state.lines rest

/-- How the loop ends from a state on: with lines and a rest, or with the first failure. A loop that
    goes on forever does not end in any way. -/
inductive Ends (width : UInt64) (word : Text) : Breaking → Except Fault (List Text × Text) → Prop
  | failed {state : Breaking} {reason : Fault} (h : state.step width word = .error reason) :
      Ends width word state (.error reason)
  | finished {state : Breaking} {lines : List Text} {rest : Text}
      (h : state.step width word = .ok (.finished lines rest)) :
      Ends width word state (.ok (lines, rest))
  | again {state next : Breaking} {outcome : Except Fault (List Text × Text)}
      (h : state.step width word = .ok (.again next)) (hrest : Ends width word next outcome) :
      Ends width word state outcome

theorem Ends.unique {width : UInt64} {word : Text} {state : Breaking}
    {outcome outcome' : Except Fault (List Text × Text)} (h : Ends width word state outcome)
    (h' : Ends width word state outcome') : outcome' = outcome := by
  induction h with
  | failed h =>
    cases h' <;> simp_all
  | finished h =>
    cases h' <;> simp_all
  | again h _ ih =>
    cases h' <;> simp_all

variable {width : Width} {word : Text} {position : Nat} {lines : List Text}

/-- Where more than a line is left, a line is broken off without a failure. -/
theorem step_of_wide (hlength : word.length < UInt64.size)
    (hwide : position + width.columns < word.length) :
    step (.ofNat width.columns) word ⟨.ofNat position, lines⟩ =
      .ok (.again ⟨.ofNat (position + (width.columns - 1)),
        lines ++ [(word.drop position).take (width.columns - 1) ++ ['-']]⟩) := by
  have hcolumns := width.twenty_le
  have hremaining : Position.sub (.ofNat word.length) (.ofNat position) =
      .ok (.ofNat (word.length - position)) := Position.sub_ofNat hlength (by omega)
  have hlt : UInt64.ofNat width.columns < UInt64.ofNat (word.length - position) :=
    (UInt64.ofNat_lt_iff_lt (by omega) (by omega)).2 (by omega)
  have hsum : Position.add (.ofNat position) (.ofNat width.columns) =
      .ok (.ofNat (position + width.columns)) := Position.add_ofNat (by omega)
  have hright : Position.sub (.ofNat (position + width.columns)) 1 =
      .ok (.ofNat (position + width.columns - 1)) :=
    Position.sub_ofNat (b := 1) (by omega) (by omega)
  have hpiece : Position.slice word (.ofNat position) (.ofNat (position + width.columns - 1)) =
      .ok ((word.drop position).take (width.columns - 1)) := by
    rw [Position.slice_ofNat hlength (by omega) (by omega), List.drop_take]
    congr 2
    omega
  unfold step
  simp only [hremaining, ok_bind, if_pos hlt, hsum, hright, hpiece]
  rw [Nat.add_sub_assoc (by omega)]
  rfl

/-- Where a line is left or less, the loop is at its end. -/
theorem step_of_narrow (hlength : word.length < UInt64.size) (hposition : position ≤ word.length)
    (hnarrow : word.length ≤ position + width.columns) (hwidth : width.columns < UInt64.size) :
    step (.ofNat width.columns) word ⟨.ofNat position, lines⟩ =
      .ok (.finished lines (word.drop position)) := by
  have hremaining : Position.sub (.ofNat word.length) (.ofNat position) =
      .ok (.ofNat (word.length - position)) := Position.sub_ofNat hlength hposition
  have hle : ¬ UInt64.ofNat width.columns < UInt64.ofNat (word.length - position) := by
    rw [UInt64.ofNat_lt_iff_lt hwidth (by omega)]
    omega
  have hrest : Position.slice word (.ofNat position) (.ofNat word.length) =
      .ok (word.drop position) := by
    rw [Position.slice_ofNat hlength hposition (Nat.le_refl _), List.take_length]
  unfold step
  simp only [hremaining, ok_bind, if_neg hle, hrest]
  rfl

/-! ## A whole run -/

/-- From every position on, the loop ends as the word is broken from there. -/
theorem ends_breakWord (hlength : word.length < UInt64.size) (hwidth : width.columns < UInt64.size)
    (hposition : position ≤ word.length) :
    Ends (.ofNat width.columns) word ⟨.ofNat position, lines⟩
      (.ok (lines ++ (breakWord width (word.drop position)).1,
        (breakWord width (word.drop position)).2)) := by
  generalize hrest : word.drop position = rest
  have hleft : rest.length = word.length - position := by rw [← hrest, List.length_drop]
  induction rest using breakWord.induct width generalizing position lines with
  | case1 rest hwide _ _ _ ih =>
    have hcolumns := width.twenty_le
    have hdrop : word.drop (position + (width.columns - 1)) = rest.drop (width.columns - 1) := by
      rw [← hrest, List.drop_drop]
    have hlater : Ends (.ofNat width.columns) word ⟨.ofNat (position + (width.columns - 1)),
        lines ++ [rest.take (width.columns - 1) ++ ['-']]⟩ _ :=
      ih (by omega) hdrop (by rw [List.length_drop]; omega)
    rw [List.append_assoc] at hlater
    rw [breakWord, if_pos hwide]
    refine .again ?_ hlater
    rw [step_of_wide hlength (by omega), hrest]
  | case2 rest hnarrow =>
    rw [breakWord_of_le (by omega), List.append_nil]
    refine .finished ?_
    rw [step_of_narrow hlength hposition (by omega) hwidth, hrest]

end Breaking

/-- At least two characters are left of a word that has so many. -/
theorem two_le_length_rest (width : Width) (word : Text) (h : 2 ≤ word.length) :
    2 ≤ (breakWord width word).2.length := by
  induction word using breakWord.induct width with
  | case1 word hwide _ _ _ ih =>
    -- what is broken off a wide word is shorter than a line, so more than a character is left
    rw [breakWord, if_pos hwide]
    apply ih
    rw [List.length_drop]
    omega
  | case2 word hnarrow =>
    rw [breakWord_of_le (by omega)]
    exact h

/-- A width that leaves room for a hyphen, as close as possible to the one that is asked for. -/
def Position.width (columns : UInt64) : UInt64 := max columns 20

theorem Position.toNat_width (columns : UInt64) :
    (width columns).toNat = (Width.ofNat columns.toNat).columns := by
  show (if columns ≤ 20 then 20 else columns).toNat = max columns.toNat 20
  have htwenty : (20 : UInt64).toNat = 20 := rfl
  split
  · next hle =>
    rw [UInt64.le_iff_toNat_le, htwenty] at hle
    omega
  · next hlt =>
    rw [UInt64.le_iff_toNat_le, htwenty] at hlt
    omega

namespace Breaking

/-- At every width that can be asked for, the loop ends on every word, and in no other way than with
    lines of this width and a rest that fits on one. -/
theorem ends_in_range (columns : UInt64) {word : Text} (hword : word ≠ [])
    (hlength : word.length < UInt64.size) :
    ∃ pieces rest,
      (∀ outcome, Ends (Position.width columns) word ⟨0, []⟩ outcome ↔
        outcome = .ok (pieces.map (· ++ ['-']), rest)) ∧
      breakWord (Width.ofNat columns.toNat) word = (pieces.map (· ++ ['-']), rest) ∧
      (∀ line ∈ pieces.map (· ++ ['-']), line.length = (Position.width columns).toNat) ∧
      pieces.flatten ++ rest = word ∧
      1 ≤ rest.length ∧ rest.length ≤ (Position.width columns).toNat ∧
      (pieces ≠ [] → 2 ≤ rest.length) := by
  obtain ⟨pieces, rest, hbreak, hfits, hwhole⟩ :=
    exists_broken (Width.ofNat columns.toNat) hword
  have hwidth := Position.toNat_width columns
  have hcolumns := (Width.ofNat columns.toNat).twenty_le
  refine ⟨pieces, rest, fun outcome => ?_, hbreak, fun line hline => ?_, hwhole, ?_, ?_, ?_⟩
  · have hsize := UInt64.toNat_lt_size (Position.width columns)
    have hends : Ends (.ofNat (Width.ofNat columns.toNat).columns) word ⟨0, []⟩ _ :=
      ends_breakWord hlength (by omega) (Nat.zero_le word.length)
    rw [List.drop_zero, hbreak, List.nil_append, ← hwidth, UInt64.ofNat_toNat] at hends
    constructor
    · exact hends.unique
    · rintro rfl
      exact hends
  · obtain ⟨piece, hpiece, rfl⟩ := List.mem_map.1 hline
    have hpieces := hfits.length_pieces piece hpiece
    rw [List.length_append, List.length_singleton]
    omega
  · exact List.length_pos_iff.2 hfits.rest_ne_nil
  · have hrow : (Text.joinWords [rest]).length ≤ _ := hfits.length_row
    rw [Text.joinWords_singleton] at hrow
    omega
  · intro hbroken
    have hwide := hfits.broken_iff.1 hbroken
    rw [hwhole] at hwide
    have htwo := two_le_length_rest (Width.ofNat columns.toNat) word (by omega)
    rwa [hbreak] at htwo

/-- A word that is one character wider than the narrowest line leaves two characters, and the widest
    line leaves a word whole. -/
theorem ends_of_narrowest_and_widest :
    (∀ outcome, Ends (Position.width 0) (List.replicate 21 'a') ⟨0, []⟩ outcome ↔
      outcome = .ok ([List.replicate 19 'a' ++ ['-']], ['a', 'a'])) ∧
    ∀ outcome, Ends (Position.width 18446744073709551615) ['a'] ⟨0, []⟩ outcome ↔
      outcome = .ok ([], ['a']) := by
  constructor
  · have hbreak : breakWord (Width.ofNat (0 : UInt64).toNat) (List.replicate 21 'a') =
        ([List.replicate 19 'a' ++ ['-']], ['a', 'a']) := by
      rw [breakWord, if_pos (by decide), breakWord_of_le (by decide)]
      rfl
    obtain ⟨pieces, rest, hends, hsame, -⟩ :=
      ends_in_range 0 (by decide : List.replicate 21 'a' ≠ []) (by decide)
    rw [hbreak] at hsame
    obtain ⟨hlines, hrest⟩ := Prod.mk.inj hsame
    rwa [← hlines, ← hrest] at hends
  · obtain ⟨pieces, rest, hends, hsame, -⟩ :=
      ends_in_range 18446744073709551615 (by decide : ['a'] ≠ []) (by decide)
    rw [breakWord_of_le (by decide)] at hsame
    obtain ⟨hlines, hrest⟩ := Prod.mk.inj hsame
    rwa [← hlines, ← hrest] at hends

end Breaking

end CommandLine

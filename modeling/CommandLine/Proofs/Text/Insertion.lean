import CommandLine.Proofs.Registry.Grammar

/-!
# A word more in a definition

A word may be put between two words of a definition, or at either end of the part in front of the
separator, if white space parts it from its neighbours. The words of the definition are the old ones
then, with the new one among them, and the description stays as it is: unless one of the words is
`--`, a separator can neither turn up nor get lost.

Results:
* `Text.words_append`: the words of two texts that are parted.
* `Text.separateDescription_append`: words other than `--` stay in front of the separator.
* `Text.Inserts.words_extended`: the words of a definition with a word more.
-/

namespace CommandLine.Text

variable {before behind : Text}

/-- No word goes on from the first text into the second one. -/
def Parted (before behind : Text) : Prop :=
  behindBlank true before = true ∨ ∀ c ∈ behind.head?, isBlank c = true

/-- The token is put into the definition behind the text `before`: into the part in front of the
    separator, not inside a word, and with white space on the left and on the right as needed. -/
structure Inserts (token definition extended before left right behind : Text) : Prop where
  definition_eq : definition = before ++ behind
  extended_eq : extended = before ++ left ++ token ++ right ++ behind
  length_le : before.length ≤ (separateDescription true definition).1.length
  blank : ∀ c ∈ left ++ right, isBlank c = true
  parted : Parted before behind
  parted_left : Parted (before ++ left) token
  parted_right : Parted token (right ++ behind)

/-! ## Words -/

theorem behindBlank_append (boundary : Bool) (before behind : Text) :
    behindBlank boundary (before ++ behind) = behindBlank (behindBlank boundary before) behind := by
  unfold behindBlank
  rw [List.getLast?_append]
  cases behind.getLast? <;> simp

theorem behindBlank_of_blank {text : Text} (hne : text ≠ [])
    (h : ∀ c ∈ text, isBlank c = true) (boundary : Bool) : behindBlank boundary text = true := by
  unfold behindBlank
  rw [List.getLast?_eq_some_getLast hne]
  exact h _ (List.getLast_mem hne)

theorem IsWord.behindBlank_eq {word : Text} (h : IsWord word) (boundary : Bool) :
    behindBlank boundary word = false := by
  unfold behindBlank
  rw [List.getLast?_eq_some_getLast h.1]
  exact h.2 _ (List.getLast_mem h.1)

/-- What is in front of the last characters plays no role. -/
theorem Parted.of_append (front : Text) (h : Parted (front ++ before) behind) :
    Parted before behind := by
  rcases h with h | h
  · left
    rw [behindBlank_append] at h
    unfold behindBlank at h ⊢
    cases hlast : before.getLast? with
    | none => rfl
    | some c => simpa [hlast] using h
  · exact .inr h

theorem Parted.of_isPrefix {front : Text} (h : Parted before behind) (hfront : front <+: behind) :
    Parted before front := by
  obtain ⟨rest, rfl⟩ := hfront
  refine h.imp_right fun hblank c hc => hblank c ?_
  cases front with
  | nil => cases hc
  | cons d ds => exact hc

theorem Parted.of_blank (h : ∀ c ∈ behind, isBlank c = true) : Parted before behind :=
  .inr fun c hc => h c (List.mem_of_mem_head? hc)

/-- Behind a word there is white space, or nothing. -/
theorem Parted.head?_blank {word : Text} (h : Parted word behind) (hword : IsWord word) :
    ∀ c ∈ behind.head?, isBlank c = true := by
  refine h.resolve_left fun hblank => ?_
  rw [hword.behindBlank_eq] at hblank
  cases hblank

/-- A text that does not start with white space starts with a word. -/
theorem exists_word_append {c : Char} (hc : isBlank c = false) (cs : Text) :
    ∃ word rest, c :: cs = word ++ rest ∧ IsWord word ∧ rest.length ≤ cs.length ∧
      ∀ d ∈ rest.head?, isBlank d = true := by
  induction cs generalizing c with
  | nil => exact ⟨[c], [], rfl, ⟨by simp, by simpa using hc⟩, Nat.le_refl _, by simp⟩
  | cons d ds ih =>
    by_cases hd : isBlank d = true
    · exact ⟨[c], d :: ds, rfl, ⟨by simp, by simpa using hc⟩, Nat.le_refl _, by simpa using hd⟩
    · obtain ⟨word, rest, hsplit, hword, hle, hrest⟩ := ih (by simpa using hd)
      refine ⟨c :: word, rest, by rw [hsplit, List.cons_append], ⟨by simp, ?_⟩,
        Nat.le_succ_of_le hle, hrest⟩
      intro x hx
      rcases List.mem_cons.1 hx with rfl | hx
      · exact hc
      · exact hword.2 x hx

/-- The words of two texts that are parted. -/
theorem words_append (before : Text) {behind : Text} (h : Parted before behind) :
    words (before ++ behind) = words before ++ words behind := by
  match before with
  | [] => rfl
  | c :: cs =>
    by_cases hc : isBlank c = true
    · have hrest : Parted cs behind := Parted.of_append [c] h
      rw [List.cons_append, words_blank hc, words_blank hc, words_append cs hrest]
    · -- the word is skipped as a whole, since the texts are parted behind it and not inside
      obtain ⟨word, rest, hsplit, hword, hle, hblank⟩ :=
        exists_word_append (by simpa using hc) cs
      rw [hsplit] at h ⊢
      have hlength : rest.length < (c :: cs).length := Nat.lt_succ_of_le hle
      have hblank' : ∀ d ∈ (rest ++ behind).head?, isBlank d = true := by
        cases rest with
        | nil => exact Parted.head?_blank (by rwa [List.append_nil] at h) hword
        | cons d ds => exact hblank
      rw [List.append_assoc, words_append_of_isWord hword hblank',
        words_append_of_isWord hword hblank, words_append rest (h.of_append word), List.cons_append]
termination_by before.length

/-! ## The separator -/

theorem separateDescription_of_head {text : Text} (h : ∀ c ∈ text.head?, isBlank c = true)
    (boundary boundary' : Bool) :
    separateDescription boundary text = separateDescription boundary' text := by
  cases text with
  | nil => rfl
  | cons c cs => rw [separateDescription_blank (h c rfl), separateDescription_blank (h c rfl)]

/-- Words other than `--` stay in front of the separator. -/
theorem separateDescription_append (before : Text) {behind : Text}
    (hwords : ∀ word ∈ words before, word ≠ ['-', '-']) (h : Parted before behind) :
    separateDescription true (before ++ behind) =
      (before ++ (separateDescription (behindBlank true before) behind).1,
        (separateDescription (behindBlank true before) behind).2) := by
  match before with
  | [] => rfl
  | c :: cs =>
    by_cases hc : isBlank c = true
    · have hrest : Parted cs behind := Parted.of_append [c] h
      rw [words_blank hc] at hwords
      rw [List.cons_append, separateDescription_blank hc,
        separateDescription_append cs hwords hrest, behindBlank_cons, hc]
      rfl
    · obtain ⟨word, rest, hsplit, hword, hle, hblank⟩ :=
        exists_word_append (by simpa using hc) cs
      rw [hsplit] at h hwords ⊢
      rw [words_append_of_isWord hword hblank] at hwords
      have hne : word ≠ ['-', '-'] := hwords word List.mem_cons_self
      match rest with
      | [] =>
        rw [List.append_nil] at h ⊢
        rw [separateDescription_word_append hword hne (h.head?_blank hword), hword.behindBlank_eq]
      | b :: rest =>
        have hb : isBlank b = true := hblank b rfl
        have hwords' : ∀ word ∈ words rest, word ≠ ['-', '-'] := by
          intro other hother
          exact hwords other (List.mem_cons_of_mem _ (words_blank hb rest ▸ hother))
        have hparted : Parted rest behind := by
          refine Parted.of_append (word ++ [b]) ?_
          rwa [List.append_assoc, List.singleton_append]
        have hlength : rest.length < (c :: cs).length := by
          simp only [List.length_cons] at hle ⊢
          omega
        rw [List.append_assoc, separateDescription_word_append hword hne (by simpa using hb),
          List.cons_append, separateDescription_blank hb,
          separateDescription_append rest hwords' hparted, behindBlank_append, behindBlank_cons, hb]
        simp
termination_by before.length
decreasing_by
  · exact Nat.lt_succ_self _
  · exact hlength

/-- A text that ends in front of the separator is in front of it. -/
theorem separateDescription_append_of_le {boundary : Bool} (before : Text) {behind : Text}
    (h : before.length ≤ (separateDescription boundary (before ++ behind)).1.length) :
    separateDescription boundary (before ++ behind) =
      (before ++ (separateDescription (behindBlank boundary before) behind).1,
        (separateDescription (behindBlank boundary before) behind).2) := by
  induction before generalizing boundary with
  | nil => rfl
  | cons c cs ih =>
    rw [List.cons_append, separateDescription] at h ⊢
    split at h
    · simp at h
    · next hseparator =>
      rw [if_neg hseparator, ih (by simpa using h), behindBlank_cons]
      rfl

theorem fst_separateDescription_isPrefix (boundary : Bool) (text : Text) :
    (separateDescription boundary text).1 <+: text := by
  induction text generalizing boundary with
  | nil => exact List.prefix_rfl
  | cons c cs ih =>
    rw [separateDescription]
    split
    · exact List.nil_prefix
    · exact List.cons_prefix_cons.2 ⟨rfl, ih (isBlank c)⟩

/-- Behind two texts from which it is parted, a text is divided in the same way. -/
theorem separateDescription_of_parted {other : Text} (h : Parted before behind)
    (hother : Parted other behind) :
    separateDescription (behindBlank true other) behind =
      separateDescription (behindBlank true before) behind := by
  rcases h with h | h
  · rcases hother with hother | hother
    · rw [h, hother]
    · exact separateDescription_of_head hother _ _
  · exact separateDescription_of_head h _ _

/-! ## Insertion -/

namespace Inserts

variable {token definition extended left right : Text}

theorem words_front (h : Inserts token definition extended before left right behind)
    (htoken : IsWord token) :
    words (before ++ left ++ token ++ right) = words before ++ [token] := by
  have hleft : ∀ c ∈ left, isBlank c = true := fun c hc => h.blank c (List.mem_append_left _ hc)
  have hright : ∀ c ∈ right, isBlank c = true :=
    fun c hc => h.blank c (List.mem_append_right _ hc)
  rw [words_append _ (.of_blank hright), words_append _ h.parted_left,
    words_append _ (.of_blank hleft), words_eq_nil_iff.2 hleft, words_eq_nil_iff.2 hright,
    words_of_isWord htoken, List.append_nil, List.append_nil]

theorem parted_front (h : Inserts token definition extended before left right behind)
    (htoken : IsWord token) : Parted (before ++ left ++ token ++ right) behind := by
  have hblank := h.parted_right.head?_blank htoken
  cases right with
  | nil => exact .inr hblank
  | cons c cs =>
    left
    rw [behindBlank_append]
    exact behindBlank_of_blank (by simp) (fun d hd => h.blank d (List.mem_append_right _ hd)) _

theorem words_definition (h : Inserts token definition extended before left right behind) :
    words (separateDescription true definition).1 =
      words before ++ words (separateDescription (behindBlank true before) behind).1 := by
  have hle := h.length_le
  rw [h.definition_eq] at hle ⊢
  rw [separateDescription_append_of_le before hle]
  exact words_append before (h.parted.of_isPrefix (fst_separateDescription_isPrefix _ behind))

/-- The words of a definition with a word more, and its description. -/
theorem words_extended (h : Inserts token definition extended before left right behind)
    (htoken : IsWord token) (hdash : token ≠ ['-', '-'])
    (hwords : ∀ word ∈ words before, word ≠ ['-', '-']) :
    words (separateDescription true extended).1 = words before ++
        token :: words (separateDescription (behindBlank true before) behind).1 ∧
      (separateDescription true extended).2 = (separateDescription true definition).2 := by
  have hfront := h.words_front htoken
  have hparted := h.parted_front htoken
  have hwords' : ∀ word ∈ words (before ++ left ++ token ++ right), word ≠ ['-', '-'] := by
    rw [hfront]
    intro word hword
    rcases List.mem_append.1 hword with hword | hword
    · exact hwords word hword
    · exact List.mem_singleton.1 hword ▸ hdash
  have hle := h.length_le
  rw [h.definition_eq] at hle ⊢
  rw [h.extended_eq, separateDescription_append_of_le before hle,
    separateDescription_append _ hwords' hparted, separateDescription_of_parted h.parted hparted]
  refine ⟨?_, rfl⟩
  rw [words_append _ (hparted.of_isPrefix (fst_separateDescription_isPrefix _ behind)), hfront,
    List.append_assoc]
  rfl

end Inserts

end CommandLine.Text

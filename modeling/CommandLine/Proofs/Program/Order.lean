import CommandLine.Proofs.Program.Spelling

/-!
# The order of the entries

A token selects the entries of one name only: those that it names in full, or those of the only name
that it begins. So the order in which entries were added decides between entries of one name, and
between no others: when the lists of a tree are rearranged in such a way that entries of one name
stay in order, every list of tokens has the answer that it had before. For the same reason a token
that is expanded leads to the same answers as the name that it is expanded to.

Results:
* `eq_of_selects`: a token selects a single name.
* `Entry.dispatch_of_shuffled`: one list is put in another order.
* `Entry.run_of_reordered`: the lists below an entry are.
* `Program.dispatch_of_order_and_expansion`: what plays no role for the answer.
-/

namespace CommandLine

/-! ## Selected names -/

variable {names : List Text} {token name other : Text}

/-- A token selects no two names. -/
theorem eq_of_selects (hname : selects names token name = true)
    (hother : selects names token other = true) (hmem : other ∈ names) : other = name := by
  unfold selects at hname hother
  by_cases htoken : token ∈ names
  · rw [if_pos htoken, decide_eq_true_eq] at hname hother
    rw [hname, hother]
  · rw [if_neg htoken] at hname hother
    simp only [Bool.and_eq_true, List.all_eq_true, decide_eq_true_eq] at hname hother
    exact hname.2 other hmem hother.1.2

/-- What a token selects depends on which names there are, not on their order. -/
theorem selects_of_perm {others : List Text} (h : others.Perm names) (token : Text) :
    selects others token = selects names token := by
  funext name
  unfold selects
  have hmem : token ∈ others ↔ token ∈ names := h.mem_iff
  have hall : (others.all fun other => token.isPrefixOf other → other = name) =
      names.all fun other => token.isPrefixOf other → other = name := h.all_eq
  rw [hall]
  by_cases htoken : token ∈ names
  · rw [if_pos htoken, if_pos (hmem.2 htoken)]
  · rw [if_neg htoken, if_neg (hmem.not.2 htoken)]

/-- A token that is expanded to a name selects the entries that the name selects. -/
theorem selects_of_expands (hmem : name ∈ names) (hexpands : (⟨names, name⟩ : Step).Expands token)
    (hother : other ∈ names) : selects names token other = selects names name other := by
  have hexpanded : selects names token name = true :=
    (Step.admits_iff hmem).1 (.inr hexpands)
  have hnamed : selects names name name = true := by simp [selects, hmem]
  by_cases heq : other = name
  · rw [heq, hexpanded, hnamed]
  · have hnot : ∀ found, selects names found name = true → selects names found other = false := by
      intro found hfound
      by_contra hselects
      exact heq (eq_of_selects hfound (by simpa using hselects) hother)
    rw [hnot token hexpanded, hnot name hnamed]

namespace Entry

variable {α ρ : Type}

/-! ## Another order -/

/-- The same entries in another order, where those of one name follow each other as before. -/
structure Shuffled (entries others : List (Entry α)) : Prop where
  perm : others.Perm entries
  named : ∀ name, others.filter (fun entry => entry.name = name) =
    entries.filter fun entry => entry.name = name

/-- The same entry, where the lists at any depth below it may be in another order. -/
inductive Reordered : Entry α → Entry α → Prop
  | command (name : Text) (content : α) : Reordered (.command name content) (.command name content)
  | group (name : Text) {entries inner others : List (Entry α)}
      (hinner : List.Forall₂ Reordered entries inner) (horder : Shuffled inner others) :
      Reordered (.group name entries) (.group name others)

/-- The same entries, where their list and those at any depth below it may be in another order. -/
def ReorderedAll (entries others : List (Entry α)) : Prop :=
  ∃ inner, List.Forall₂ Reordered entries inner ∧ Shuffled inner others

/-- No entry changes places. -/
theorem Shuffled.refl (entries : List (Entry α)) : Shuffled entries entries :=
  ⟨.refl entries, fun _ => rfl⟩

/-- Two neighbours of different names change places. -/
theorem Shuffled.swap (front : List (Entry α)) {entry other : Entry α}
    (hname : entry.name ≠ other.name) (behind : List (Entry α)) :
    Shuffled (front ++ entry :: other :: behind) (front ++ other :: entry :: behind) where
  perm := (List.Perm.swap entry other behind).append_left front
  named name := by
    simp only [List.filter_append, List.filter_cons, decide_eq_true_eq]
    congr 1
    split_ifs with hother hentry
    · exact absurd (hentry.trans hother.symm) hname
    all_goals rfl

mutual

theorem Reordered.refl : ∀ entry : Entry α, Reordered entry entry
  | .command name content => .command name content
  | .group name entries => .group name (forall₂_reordered_refl entries) (.refl entries)

theorem forall₂_reordered_refl :
    ∀ entries : List (Entry α), List.Forall₂ Reordered entries entries
  | [] => .nil
  | entry :: entries => .cons (.refl entry) (forall₂_reordered_refl entries)

end

theorem Reordered.name_eq {entry other : Entry α} (h : Reordered entry other) :
    other.name = entry.name := by
  cases h <;> rfl

theorem map_name_of_reordered {entries others : List (Entry α)}
    (h : List.Forall₂ Reordered entries others) :
    others.map Entry.name = entries.map Entry.name := by
  induction h with
  | nil => rfl
  | cons hentry _ ih => rw [List.map_cons, List.map_cons, hentry.name_eq, ih]

/-! ## One list -/

theorem runSelected_congr {selected selected' : Text → Bool} {entries : List (Entry (Prepared ρ))}
    (h : ∀ entry ∈ entries, selected entry.name = selected' entry.name) (tokens : List Text) :
    runSelected selected tokens entries = runSelected selected' tokens entries := by
  rw [runSelected_eq_findSome?, runSelected_eq_findSome?, List.filter_congr h]

/-- Lists of the same names answer the same when they do so for the same selection of names. -/
theorem dispatch_congr {entries others : List (Entry (Prepared ρ))}
    (hnames : others.map Entry.name = entries.map Entry.name)
    (hrun : ∀ selected tokens, runSelected selected tokens others =
      runSelected selected tokens entries) (tokens : List Text) :
    dispatch others tokens = dispatch entries tokens := by
  cases tokens with
  | nil => rfl
  | cons token rest => rw [dispatch, dispatch, hnames, hrun]

/-- The entries that a token selects are those of one name, or there are none. -/
theorem filter_selects (token : Text) (entries : List (Entry α)) :
    (∀ entry ∈ entries, selects (entries.map Entry.name) token entry.name = false) ∨
      ∃ name, ∀ entry ∈ entries,
        selects (entries.map Entry.name) token entry.name = decide (entry.name = name) := by
  by_cases hselected : ∃ entry ∈ entries, selects (entries.map Entry.name) token entry.name = true
  · obtain ⟨entry, -, hentry⟩ := hselected
    refine .inr ⟨entry.name, fun other hother => ?_⟩
    rw [Bool.eq_iff_iff, decide_eq_true_eq]
    constructor
    · exact fun hselects => eq_of_selects hentry hselects (List.mem_map_of_mem hother)
    · intro heq
      rw [heq]
      exact hentry
  · left
    intro entry hentry
    simpa using fun hselects => hselected ⟨entry, hentry, hselects⟩

/-- The selected entries are the same, in the same order, when entries of one name stay in order. -/
theorem Shuffled.filter_selects_eq {entries others : List (Entry α)} (h : Shuffled entries others)
    (token : Text) :
    others.filter (fun entry => selects (others.map Entry.name) token entry.name) =
      entries.filter fun entry => selects (entries.map Entry.name) token entry.name := by
  rw [selects_of_perm (h.perm.map Entry.name) token]
  rcases filter_selects token entries with hnone | ⟨name, hname⟩
  · have hentries : entries.filter
        (fun entry => selects (entries.map Entry.name) token entry.name) = [] :=
      List.filter_eq_nil_iff.2 fun entry hentry => by simp [hnone entry hentry]
    have hothers : others.filter
        (fun entry => selects (entries.map Entry.name) token entry.name) = [] :=
      List.perm_nil.1 (hentries ▸ h.perm.filter _)
    rw [hentries, hothers]
  · have hothers : ∀ entry ∈ others,
        selects (entries.map Entry.name) token entry.name = decide (entry.name = name) :=
      fun entry hentry => hname entry (h.perm.mem_iff.1 hentry)
    rw [List.filter_congr hname, List.filter_congr hothers, h.named name]

/-- The answers of a list do not change when entries of one name stay in order. -/
theorem dispatch_of_shuffled {entries others : List (Entry (Prepared ρ))}
    (h : Shuffled entries others) (tokens : List Text) :
    dispatch others tokens = dispatch entries tokens := by
  cases tokens with
  | nil => rfl
  | cons token rest =>
    rw [dispatch, dispatch, runSelected_eq_findSome?, runSelected_eq_findSome?,
      h.filter_selects_eq token]

/-- A token that is expanded to a name has the answers of the name. -/
theorem dispatch_of_expands {entries : List (Entry (Prepared ρ))}
    (hmem : name ∈ entries.map Entry.name)
    (hexpands : (⟨entries.map Entry.name, name⟩ : Step).Expands token) (rest : List Text) :
    dispatch entries (token :: rest) = dispatch entries (name :: rest) := by
  rw [dispatch, dispatch]
  exact runSelected_congr
    (fun _ hentry => selects_of_expands hmem hexpands (List.mem_map_of_mem hentry)) rest

/-! ## All lists -/

mutual

/-- An entry answers as before when the lists below it are put in another order. -/
theorem run_of_reordered {entry other : Entry (Prepared ρ)} (h : Reordered entry other)
    (tokens : List Text) : run tokens other = run tokens entry := by
  cases h with
  | command name content => rfl
  | @group name entries inner others hinner horder =>
    -- first the order of this list, then the lists below its entries, where the names stay in place
    rw [run_group, run_group, dispatch_of_shuffled horder]
    exact dispatch_congr (map_name_of_reordered hinner)
      (fun selected tokens => runSelected_of_reordered hinner selected tokens) tokens
termination_by sizeOf entry

theorem runSelected_of_reordered {entries others : List (Entry (Prepared ρ))}
    (h : List.Forall₂ Reordered entries others) (selected : Text → Bool) (tokens : List Text) :
    runSelected selected tokens others = runSelected selected tokens entries := by
  cases h with
  | nil => rfl
  | cons hentry hentries =>
    rw [runSelected, runSelected, hentry.name_eq, run_of_reordered hentry tokens,
      runSelected_of_reordered hentries selected tokens]
termination_by sizeOf entries

end

/-- The answers do not change when the lists at any depth are put in another order. -/
theorem dispatch_of_reorderedAll {entries others : List (Entry (Prepared ρ))}
    (h : ReorderedAll entries others) (tokens : List Text) :
    dispatch others tokens = dispatch entries tokens := by
  obtain ⟨inner, hinner, horder⟩ := h
  rw [dispatch_of_shuffled horder]
  exact dispatch_congr (map_name_of_reordered hinner) (runSelected_of_reordered hinner) tokens

end Entry

namespace Program

variable {ρ : Type}

/-- What plays no role for the answer: the order of entries of different names, in every list, and
    whether a token is a name or expanded to it. -/
theorem dispatch_of_order_and_expansion :
    (∀ program other : Program (Prepared ρ), Entry.ReorderedAll program.entries other.entries →
        ∀ tokens, other.dispatch tokens = program.dispatch tokens) ∧
      ∀ (entries : List (Entry (Prepared ρ))) (name token : Text),
        name ∈ entries.map Entry.name →
        (⟨entries.map Entry.name, name⟩ : Step).Expands token →
        ∀ rest, Entry.dispatch entries (token :: rest) = Entry.dispatch entries (name :: rest) :=
  ⟨fun _ _ h tokens => Entry.dispatch_of_reorderedAll h tokens,
    fun _ _ _ hmem hexpands rest => Entry.dispatch_of_expands hmem hexpands rest⟩

/-- A group changes places with the first of two commands of one name, and the commands of the group
    change places with each other. The first of the two commands still answers, also where its name
    is shortened. -/
theorem dispatch_of_moved_group :
    ∃ program other : Program (Prepared Nat),
      Program.prepare (ρ := Nat) ⟨['p'], none,
          [.group ['a', 'p', 'p'] [.command ['x'] ⟨[], fun _ => 0⟩,
              .command ['y'] ⟨[], fun _ => 1⟩],
            .command ['r', 'u', 'n'] ⟨[], fun _ => 2⟩,
            .command ['r', 'u', 'n'] ⟨[], fun _ => 3⟩]⟩ = .ok program ∧
        Program.prepare (ρ := Nat) ⟨['p'], none,
          [.command ['r', 'u', 'n'] ⟨[], fun _ => 2⟩,
            .group ['a', 'p', 'p'] [.command ['y'] ⟨[], fun _ => 1⟩,
              .command ['x'] ⟨[], fun _ => 0⟩],
            .command ['r', 'u', 'n'] ⟨[], fun _ => 3⟩]⟩ = .ok other ∧
        program.dispatch [['r', 'u']] = some 2 ∧
        other.dispatch [['r', 'u']] = program.dispatch [['r', 'u']] ∧
        program.dispatch [['r', 'u']] = program.dispatch [['r', 'u', 'n']] := by
  refine ⟨_, _, rfl, rfl, rfl, ?_, ?_⟩
  · have hgroup : Entry.Reordered (α := Prepared Nat)
        (.group ['a', 'p', 'p'] [.command ['x'] ⟨{ options := [] }, fun _ => 0⟩,
          .command ['y'] ⟨{ options := [] }, fun _ => 1⟩])
        (.group ['a', 'p', 'p'] [.command ['y'] ⟨{ options := [] }, fun _ => 1⟩,
          .command ['x'] ⟨{ options := [] }, fun _ => 0⟩]) :=
      .group _ (Entry.forall₂_reordered_refl _) (.swap [] (by decide) [])
    exact dispatch_of_order_and_expansion.1 _ _
      ⟨_, .cons hgroup (Entry.forall₂_reordered_refl _), .swap [] (by decide) _⟩ _
  · refine dispatch_of_order_and_expansion.2 _ _ _ (by decide) ?_ []
    exact ⟨by decide, by decide, by decide, by decide⟩

end Program

end CommandLine

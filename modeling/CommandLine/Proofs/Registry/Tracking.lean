import CommandLine.Proofs.Registry.Insertion

/-!
# Groups along a run of tokens

Tokens are read one after the other, and one that is refused does not end the run. Reading a token
does one of three things: an opening bracket is refused inside a group, a closing one is refused
outside of any, and both leave the place as it was; or else the brackets fit, and they alone move
the place, whatever becomes of the body. So the number of groups at a place is the number of tokens
that opened one, and options share a number just if no group was opened between their tokens.

Results:
* `Brackets.readsAs_read`: what reading one token can do.
* `Brackets.exists_of_attempts_eq`: where each token of a run is read.
* `Brackets.tracks_attempts`: the places, the refusals and the groups along a run.
-/

namespace CommandLine

/-! ## Mistakes of a body -/

/-- Whether the mistake is one of the brackets. -/
def Mistake.isOfBrackets : Mistake → Bool
  | .unopenedOptional | .nestedOptionals | .unclosedOptional => true
  | _ => false

theorem Segment.isOfBrackets_of_read {text : Text} {mistake : Mistake}
    (h : Segment.read text = .error mistake) : mistake.isOfBrackets = false := by
  have hmarked : ∀ {kind : Kind} {body : Text} {found : Mistake},
      readMarked kind body = .error found → found.isOfBrackets = false := by
    intro kind body found hfound
    obtain ⟨name, takesValue, rfl, hmark⟩ := exists_mark body
    rw [readMarked_append hmark] at hfound
    split at hfound <;> cases hfound
    rfl
  unfold read at h
  split at h
  · split at h
    · next found hfound =>
      cases h
      exact hmarked hfound
    · cases h
      rfl
  · exact hmarked h
  · exact hmarked h
  · unfold readArgument withoutAngles at h
    grind [Mistake.isOfBrackets]

namespace Declaration

theorem isOfBrackets_of_addAlias {option : Declaration} {group : Option Nat} {text : Text}
    {mistake : Mistake} (h : option.addAlias group text = .error mistake) :
    mistake.isOfBrackets = false := by
  unfold addAlias at h
  split at h
  · cases h; rfl
  · split at h
    · cases h; rfl
    · split at h
      · next found hfound =>
        cases h
        exact Segment.isOfBrackets_of_read hfound
      · grind [Mistake.isOfBrackets]

theorem isOfBrackets_of_addAliases {option : Declaration} {group : Option Nat} {texts : List Text}
    {mistake : Mistake} (h : option.addAliases group texts = .error mistake) :
    mistake.isOfBrackets = false := by
  induction texts generalizing option with
  | nil => cases h
  | cons text texts ih =>
    rw [addAliases] at h
    split at h
    · exact ih h
    · next found hfound =>
      cases h
      exact isOfBrackets_of_addAlias hfound

/-- A body is never refused for brackets. -/
theorem isOfBrackets_of_ofBody {group : Option Nat} {body : Text} {mistake : Mistake}
    (h : ofBody group body = .error mistake) : mistake.isOfBrackets = false := by
  unfold ofBody at h
  split at h
  split at h
  · next found hfound =>
    cases h
    exact Segment.isOfBrackets_of_read hfound
  · exact isOfBrackets_of_addAliases (map_eq_error_iff.1 h)

end Declaration

namespace Brackets

variable {place : Brackets} {token : Text}

/-! ## One token -/

/-- What reading a token at a place can do: its answer, and the place behind it. -/
inductive ReadsAs (place : Brackets) (token : Text) :
    Except Mistake (List Declaration) → Brackets → Prop
  | nested (hopens : opens token = true) (hplace : place.isOpen = true) :
      ReadsAs place token (.error .nestedOptionals) place
  | unopened (hopens : opens token = false) (hcloses : closes token = true)
      (hplace : place.isOpen = false) : ReadsAs place token (.error .unopenedOptional) place
  | fitting (hopens : opens token = true → place.isOpen = false)
      (hcloses : closes token = true → (place.isOpen || opens token) = true) :
      ReadsAs place token (Declaration.ofBody (place.entered (opens token)).group? (body token))
        (place.behindToken token)

theorem readsAs_read (place : Brackets) (token : Text) :
    ReadsAs place token (place.read token).1 (place.read token).2 := by
  have hpeel := peel_eq place token
  by_cases hnested : (opens token && place.isOpen) = true
  · rw [if_pos hnested] at hpeel
    rw [Bool.and_eq_true] at hnested
    rw [read, hpeel]
    exact .nested hnested.1 hnested.2
  · rw [if_neg hnested] at hpeel
    by_cases hunopened : (closes token && !(place.isOpen || opens token)) = true
    · rw [if_pos hunopened] at hpeel
      simp only [Bool.and_eq_true, Bool.not_eq_true', Bool.or_eq_false_iff] at hunopened
      rw [read, hpeel]
      exact .unopened hunopened.2.2 hunopened.1 hunopened.2.1
    · rw [if_neg hunopened] at hpeel
      rw [read_of_peel hpeel]
      refine .fitting (fun hopens => ?_) (fun hcloses => ?_)
      · simpa [hopens] using hnested
      · simpa only [hcloses, Bool.true_and, Bool.not_eq_true', Bool.not_eq_false] using hunopened

variable {answer : Except Mistake (List Declaration)} {after : Brackets}

theorem ReadsAs.nested_iff (h : ReadsAs place token answer after) :
    answer = .error .nestedOptionals ↔ token.head? = some '[' ∧ place.isOpen = true := by
  rw [← opens_iff]
  constructor
  · intro hanswer
    cases h with
    | nested hopens hplace => exact ⟨hopens, hplace⟩
    | unopened => cases hanswer
    | fitting => cases Declaration.isOfBrackets_of_ofBody hanswer
  · rintro ⟨hopens, hplace⟩
    cases h with
    | nested => rfl
    | unopened hopens' => simp [hopens] at hopens'
    | fitting hopens' => simp [hopens' hopens] at hplace

theorem ReadsAs.unopened_iff (h : ReadsAs place token answer after) :
    answer = .error .unopenedOptional ↔
      token.head? ≠ some '[' ∧ token.getLast? = some ']' ∧ place.isOpen = false := by
  rw [Ne, ← opens_iff, ← closes_iff, Bool.not_eq_true]
  constructor
  · intro hanswer
    cases h with
    | nested => cases hanswer
    | unopened hopens hcloses hplace => exact ⟨hopens, hcloses, hplace⟩
    | fitting => cases Declaration.isOfBrackets_of_ofBody hanswer
  · rintro ⟨hopens, hcloses, hplace⟩
    cases h with
    | nested hopens' => simp [hopens] at hopens'
    | unopened => rfl
    | fitting _ hcloses' => simp [hopens, hplace, hcloses] at hcloses'

/-- A token whose brackets are refused leaves the place as it was. -/
theorem ReadsAs.after_eq_of_refused (h : ReadsAs place token answer after)
    (hanswer : answer = .error .nestedOptionals ∨ answer = .error .unopenedOptional) :
    after = place := by
  cases h with
  | nested => rfl
  | unopened => rfl
  | fitting =>
    rcases hanswer with hanswer | hanswer <;>
      cases Declaration.isOfBrackets_of_ofBody hanswer

/-- Any other token moves the place by its brackets, whatever becomes of its body. -/
theorem ReadsAs.after_eq (h : ReadsAs place token answer after)
    (hnested : answer ≠ .error .nestedOptionals) (hunopened : answer ≠ .error .unopenedOptional) :
    after = place.behindToken token := by
  cases h with
  | nested => exact absurd rfl hnested
  | unopened => exact absurd rfl hunopened
  | fitting => rfl

theorem isOpen_behindToken_iff : (place.behindToken token).isOpen = true ↔
    (place.isOpen = true ∨ token.head? = some '[') ∧ token.getLast? ≠ some ']' := by
  rw [behindToken, left_isOpen, entered_isOpen, ← opens_iff, Ne, ← closes_iff]
  simp

/-- The number of groups counts the tokens that open one. -/
theorem ReadsAs.opened_eq (h : ReadsAs place token answer after) :
    after.opened = place.opened + if opens token && !place.isOpen then 1 else 0 := by
  cases h with
  | nested hopens hplace => simp [hopens, hplace]
  | unopened hopens => simp [hopens]
  | fitting hopens =>
    rw [opened_behindToken, entered]
    cases htoken : opens token with
    | true => simp [hopens htoken]
    | false => simp

/-- The options of a token and their aliases are in the group that was opened last, if one is open
    inside it. -/
theorem ReadsAs.group_eq {options : List Declaration}
    (h : ReadsAs place token (.ok options) after) :
    ∀ option ∈ options, ∀ group ∈ option.group :: option.aliases.map Alias.group,
      group = if place.isOpen || opens token then some after.opened else none := by
  generalize hanswer : Except.ok options = answer at h
  cases h with
  | nested => cases hanswer
  | unopened => cases hanswer
  | fitting =>
    intro option hoption group hgroup
    obtain ⟨hown, hothers⟩ := Declaration.group_eq_of_ofBody hanswer.symm hoption
    have hsame : group = (place.entered (opens token)).group? := by
      rcases List.mem_cons.1 hgroup with rfl | hgroup
      · exact hown
      · obtain ⟨other, hother, rfl⟩ := List.mem_map.1 hgroup
        exact hothers other hother
    rw [hsame, group?, entered_isOpen, opened_behindToken]

/-! ## A run of tokens -/

/-- A token that was read in a run: the place in front of it, its answer and the place behind it. -/
structure Attempt where
  place : Brackets
  token : Text
  answer : Except Mistake (List Declaration)
  after : Brackets

namespace Attempt

/-- Whether the token opened a group. -/
def opensGroup (attempt : Attempt) : Bool := opens attempt.token && !attempt.place.isOpen

end Attempt

/-- Reads a token at a place. -/
def attempt (place : Brackets) (token : Text) : Attempt :=
  ⟨place, token, (place.read token).1, (place.read token).2⟩

/-- The tokens are read one after the other, and one that is refused does not end the run. -/
def attempts (place : Brackets) : List Text → List Attempt
  | [] => []
  | token :: tokens => place.attempt token :: attempts (place.attempt token).after tokens

/-- How many groups were opened in a run. -/
def groupsOpened (run : List Attempt) : Nat := run.countP Attempt.opensGroup

/-- What an attempt does, in a run where these ones were made before it. -/
structure Tracked (earlier : List Attempt) (attempt : Attempt) : Prop where
  /-- The place is where the attempt before has left it. -/
  place : attempt.place = (earlier.getLast?.map Attempt.after).getD {}
  nested : attempt.answer = .error .nestedOptionals ↔
    attempt.token.head? = some '[' ∧ attempt.place.isOpen = true
  unopened : attempt.answer = .error .unopenedOptional ↔
    attempt.token.head? ≠ some '[' ∧ attempt.token.getLast? = some ']' ∧
      attempt.place.isOpen = false
  refused : attempt.answer = .error .nestedOptionals ∨ attempt.answer = .error .unopenedOptional →
    attempt.after = attempt.place
  isOpen : attempt.answer ≠ .error .nestedOptionals → attempt.answer ≠ .error .unopenedOptional →
    (attempt.after.isOpen = true ↔
      (attempt.place.isOpen = true ∨ attempt.token.head? = some '[') ∧
        attempt.token.getLast? ≠ some ']')
  opened : attempt.after.opened = groupsOpened (earlier ++ [attempt])
  /-- All options and all their aliases have the same group. -/
  group : ∀ options, attempt.answer = .ok options →
    ∀ option ∈ options, ∀ group ∈ option.group :: option.aliases.map Alias.group,
      group = if attempt.place.isOpen = true ∨ attempt.token.head? = some '[' then
        some (groupsOpened (earlier ++ [attempt]))
      else none

/-- A run of attempts, the first one at the very start. -/
structure Tracks (run : List Attempt) : Prop where
  each : ∀ earlier attempt later, run = earlier ++ attempt :: later → Tracked earlier attempt
  /-- Two tokens are in the same group just if no group was opened after the first of them. -/
  pairs : ∀ earlier first between second later,
    run = earlier ++ first :: (between ++ second :: later) →
    ∀ options options', first.answer = .ok options → second.answer = .ok options' →
      ∀ option ∈ options, ∀ option' ∈ options',
        option.isOptional = true → option'.isOptional = true →
        (option.group = option'.group ↔
          ∀ attempt ∈ between ++ [second], attempt.opensGroup = false)

theorem groupsOpened_append (front back : List Attempt) :
    groupsOpened (front ++ back) = groupsOpened front + groupsOpened back := List.countP_append

theorem groupsOpened_singleton (attempt : Attempt) :
    groupsOpened [attempt] = if attempt.opensGroup then 1 else 0 := List.countP_singleton

theorem opened_attempt (place : Brackets) (token : Text) :
    (place.attempt token).after.opened = place.opened + groupsOpened [place.attempt token] := by
  rw [groupsOpened_singleton]
  exact (readsAs_read place token).opened_eq

theorem map_token_attempts (place : Brackets) (tokens : List Text) :
    (place.attempts tokens).map Attempt.token = tokens := by
  induction tokens generalizing place with
  | nil => rfl
  | cons token tokens ih => exact congrArg (token :: ·) (ih _)

/-- Every token is read at the place that the tokens before it left behind. -/
theorem exists_of_attempts_eq {tokens : List Text} {earlier later : List Attempt}
    {attempt : Attempt} (h : place.attempts tokens = earlier ++ attempt :: later) :
    attempt.place = (earlier.getLast?.map Attempt.after).getD place ∧
      ReadsAs attempt.place attempt.token attempt.answer attempt.after ∧
      attempt.after.opened = place.opened + groupsOpened (earlier ++ [attempt]) := by
  induction earlier generalizing place tokens with
  | nil =>
    cases tokens with
    | nil => cases h
    | cons token tokens =>
      rw [attempts, List.nil_append, List.cons.injEq] at h
      obtain ⟨rfl, -⟩ := h
      exact ⟨rfl, readsAs_read place token, opened_attempt place token⟩
  | cons first earlier ih =>
    cases tokens with
    | nil => cases h
    | cons token tokens =>
      rw [attempts, List.cons_append, List.cons.injEq] at h
      obtain ⟨rfl, hrest⟩ := h
      obtain ⟨hplace, hreads, hopened⟩ := ih hrest
      refine ⟨?_, hreads, ?_⟩
      · rw [hplace, List.getLast?_cons]
        cases earlier.getLast? <;> rfl
      · rw [hopened, opened_attempt, Nat.add_assoc, ← groupsOpened_append]
        rfl

/-! ## Runs from the start -/

theorem tracked_of_attempts_eq {tokens : List Text} {earlier later : List Attempt}
    {attempt : Attempt} (h : attempts {} tokens = earlier ++ attempt :: later) :
    Tracked earlier attempt := by
  obtain ⟨hplace, hreads, hopened⟩ := exists_of_attempts_eq h
  rw [Nat.zero_add] at hopened
  refine ⟨hplace, hreads.nested_iff, hreads.unopened_iff, hreads.after_eq_of_refused, ?_, hopened,
    ?_⟩
  · intro hnested hunopened
    rw [hreads.after_eq hnested hunopened, isOpen_behindToken_iff]
  · intro options hanswer option hoption group hgroup
    rw [hanswer] at hreads
    rw [hreads.group_eq option hoption group hgroup, hopened]
    simp only [Bool.or_eq_true, opens_iff]

/-- An option in a group has the number of the group that was opened last. -/
theorem Tracked.group_eq_some {earlier : List Attempt} {attempt : Attempt}
    (h : Tracked earlier attempt) {options : List Declaration}
    (hanswer : attempt.answer = .ok options) {option : Declaration} (hoption : option ∈ options)
    (hoptional : option.isOptional = true) :
    option.group = some (groupsOpened (earlier ++ [attempt])) := by
  have hgroup : option.group = _ :=
    h.group options hanswer option hoption option.group List.mem_cons_self
  rw [hgroup]
  split at hgroup
  · next hinside => rw [if_pos hinside]
  · rw [Declaration.isOptional, hgroup] at hoptional
    cases hoptional

/-- In a run that starts at the very start, the brackets of the tokens decide where a token is
    refused for them, and in which group the options of every other token are. -/
theorem tracks_attempts (tokens : List Text) :
    (attempts {} tokens).map Attempt.token = tokens ∧ Tracks (attempts {} tokens) := by
  refine ⟨map_token_attempts {} tokens, fun _ _ _ => tracked_of_attempts_eq, ?_⟩
  intro earlier first between second later hrun options options' hfirst hsecond option hoption
    option' hoption' hoptional hoptional'
  have hgroup := (tracked_of_attempts_eq hrun).group_eq_some hfirst hoption hoptional
  rw [← List.cons_append, ← List.append_assoc] at hrun
  have hgroup' := (tracked_of_attempts_eq hrun).group_eq_some hsecond hoption' hoptional'
  have hcount : groupsOpened (earlier ++ first :: between ++ [second]) =
      groupsOpened (earlier ++ [first]) + groupsOpened (between ++ [second]) := by
    rw [← groupsOpened_append]
    simp
  rw [hgroup, hgroup', hcount, Option.some.injEq, Nat.left_eq_add, groupsOpened,
    List.countP_eq_zero]
  simp only [Bool.not_eq_true]

/-- A token without a name still opens a group, a second bracket is refused and changes nothing,
    and the group after it has the next number. -/
example : (attempts {} [['['], ['[', 'a'], ['-', 'x', 'y', ']'], ['b', ']'], ['[', 'c', ']']]).map
    (fun attempt => (attempt.answer, attempt.after)) =
      [(.error .emptyName, ⟨true, 1⟩), (.error .nestedOptionals, ⟨true, 1⟩),
        (.ok [⟨⟨.short, ['x']⟩, [], false, some 1⟩, ⟨⟨.short, ['y']⟩, [], false, some 1⟩],
          ⟨false, 1⟩),
        (.error .unopenedOptional, ⟨false, 1⟩),
        (.ok [⟨⟨.argument, ['c']⟩, [], false, some 2⟩], ⟨false, 2⟩)] := rfl

end Brackets

end CommandLine

import CommandLine.Proofs.Program.Dispatch

/-!
# Commands that are spelled in full

A token counts as the full name of an entry wherever the list that it is looked up in holds this
name; it is taken for the beginning of a longer name only in a list that does not. Lists are looked
up one by one: where two groups of one list have the same name, a token can be a full name in the
second group and a beginning in the first, and the first group is tried first. So a command whose
path is spelled in full can lose to another one, but only to one that stands before it and that lies
in another group of the same name.

Results:
* `Route.SelectedBy.spelledBy_or_expanded`: a selected path is spelled in full, or it has a first
  token that is expanded.
* `Program.dispatch_of_spelledBy`: which command answers where some command is spelled in full.
* `Program.expansion_before_full_name`: a command that is spelled in full does lose to another one.
-/

namespace CommandLine

/-! ## Full names and expansions -/

/-- The token is the name of no entry in the list, and it begins the name of the entry that is
    entered and no other. -/
def Step.Expands (step : Step) (token : Text) : Prop :=
  token ≠ [] ∧ token ∉ step.siblings ∧ token <+: step.name ∧
    ∀ other ∈ step.siblings, token <+: other → other = step.name

/-- A token leads to an entry as its name, or it is expanded to its name. -/
theorem Step.admits_iff_eq_or_expands {step : Step} {token : Text} :
    step.Admits token ↔ token = step.name ∨ step.Expands token := Iff.rfl

/-- The tokens that lead along some steps are the names of the steps, or there is a first one that
    is expanded. -/
theorem Step.names_or_expanded_of_admits {steps : List Step} {tokens : List Text}
    (h : List.Forall₂ Step.Admits steps tokens) :
    steps.map Step.name = tokens ∨
      ∃ above step below token, steps = above ++ step :: below ∧
        above.map Step.name ++ [token] <+: tokens ∧ step.Expands token := by
  induction h with
  | nil => exact .inl rfl
  | @cons step token steps tokens hadmits _ ih =>
    rcases Step.admits_iff_eq_or_expands.1 hadmits with rfl | hexpands
    · rcases ih with hnames | ⟨above, inner, below, token, hsteps, htokens, hexpands⟩
      · left
        rw [List.map_cons, hnames]
      · right
        refine ⟨step :: above, inner, below, token, ?_, ?_, hexpands⟩
        · rw [hsteps, List.cons_append]
        · exact List.cons_prefix_cons.2 ⟨rfl, htokens⟩
    · right
      exact ⟨[], step, steps, token, rfl, ⟨tokens, rfl⟩, hexpands⟩

variable {ρ : Type}

/-- The names on the way to the command are the first tokens, and it matches the others. -/
def Route.SpelledBy (route : Route (Prepared ρ)) (tokens : List Text) (found : Match) : Prop :=
  ∃ rest, tokens = route.steps.map Step.name ++ rest ∧
    route.content.registry.fit rest = .ok found

/-- The route leaves the way of the other one: behind groups that are entered by their full names it
    comes to a list in which the next token is no name, and expands it there. The other route does
    not enter an entry of this list. -/
def Route.StraysFrom (route other : Route (Prepared ρ)) (tokens : List Text) : Prop :=
  ∃ above step below token, route.steps = above ++ step :: below ∧ above ≠ [] ∧
    above.map Step.name ++ [token] <+: tokens ∧ step.Expands token ∧
    ∀ beside, other.steps[above.length]? = some beside → beside.siblings ≠ step.siblings

/-- The full names lead to the command. -/
theorem Route.SpelledBy.selectedBy {route : Route (Prepared ρ)} {tokens : List Text}
    {found : Match} (h : route.SpelledBy tokens found) : route.SelectedBy tokens found := by
  obtain ⟨rest, htokens, hfit⟩ := h
  refine ⟨route.steps.map Step.name, rest, htokens, ?_, hfit⟩
  rw [List.forall₂_map_right_iff, List.forall₂_same]
  intro step _
  exact .inl rfl

/-- A selected path is spelled in full, or there is a first token that is expanded. -/
theorem Route.SelectedBy.spelledBy_or_expanded {route : Route (Prepared ρ)} {tokens : List Text}
    {found : Match} (h : route.SelectedBy tokens found) :
    route.SpelledBy tokens found ∨
      ∃ above step below token, route.steps = above ++ step :: below ∧
        above.map Step.name ++ [token] <+: tokens ∧ step.Expands token := by
  obtain ⟨front, rest, rfl, hfront, hfit⟩ := h
  rcases Step.names_or_expanded_of_admits hfront with
    hnames | ⟨above, step, below, token, hsteps, htokens, hexpands⟩
  · left
    exact ⟨rest, by rw [hnames], hfit⟩
  · right
    exact ⟨above, step, below, token, hsteps, htokens.trans (List.prefix_append front rest),
      hexpands⟩

/-- Where the path of a command is spelled in full, the token at a level is the name of the entry
    that is entered there. -/
theorem Route.SpelledBy.name_eq {route : Route (Prepared ρ)} {tokens : List Text} {found : Match}
    (h : route.SpelledBy tokens found) {front : List Text} {token : Text}
    (hfront : front ++ [token] <+: tokens) {step : Step}
    (hstep : route.steps[front.length]? = some step) : step.name = token := by
  obtain ⟨rest, rfl, -⟩ := h
  obtain ⟨behind, htokens⟩ := hfront
  have hname : (route.steps.map Step.name ++ rest)[front.length]? = some step.name := by
    rw [List.getElem?_append_left, List.getElem?_map, hstep, Option.map_some]
    rw [List.length_map]
    exact (List.getElem?_eq_some_iff.1 hstep).1
  have htoken : (route.steps.map Step.name ++ rest)[front.length]? = some token := by
    rw [← htokens]
    simp
  exact Option.some.inj (hname.symm.trans htoken)

/-- Where the path of a command is spelled in full, no token is expanded in the list that the path
    goes through at its level: there it is a name. -/
theorem Route.SpelledBy.siblings_ne {route : Route (Prepared ρ)} {tokens : List Text}
    {found : Match} (h : route.SpelledBy tokens found)
    (hlisted : ∀ step ∈ route.steps, step.name ∈ step.siblings) {front : List Text} {token : Text}
    (hfront : front ++ [token] <+: tokens) {step : Step} (hexpands : step.Expands token)
    {beside : Step} (hbeside : route.steps[front.length]? = some beside) :
    beside.siblings ≠ step.siblings := by
  intro heq
  have hmem := hlisted beside (List.mem_of_getElem? hbeside)
  rw [h.name_eq hfront hbeside, heq] at hmem
  exact hexpands.2.1 hmem

namespace Program

variable {program : Program (Prepared ρ)}

/-- A route starts in the list of the program. -/
theorem exists_step_of_mem_routes {route : Route (Prepared ρ)} (h : route ∈ program.routes) :
    ∃ step steps, route.steps = step :: steps ∧
      step.siblings = program.entries.map Entry.name := by
  obtain ⟨entry, -, hroute⟩ := Entry.mem_routesOfAll.1 h
  obtain ⟨inner, rfl⟩ := Entry.exists_of_mem_routes hroute
  exact ⟨_, inner.steps, rfl, rfl⟩

/-- Where the tokens select a command, one that stands no later answers. -/
theorem exists_answer_of_selectedBy {spelled : Route (Prepared ρ)} (hmem : spelled ∈ program.routes)
    {tokens : List Text} {own : Match} (hselected : spelled.SelectedBy tokens own) :
    ∃ front route behind found, program.routes = front ++ route :: behind ∧
      spelled ∈ route :: behind ∧ route.SelectedBy tokens found ∧
      program.dispatch tokens = some (route.content.handler found) := by
  have hdispatch : program.dispatch tokens = program.routes.findSome? (Route.answer? tokens) :=
    Entry.dispatch_eq_findSome?_routesOfAll program.entries tokens
  have hanswers : (program.routes.findSome? (Route.answer? tokens)).isSome := by
    rw [List.findSome?_isSome_iff]
    refine ⟨spelled, hmem, ?_⟩
    rw [(answer?_eq_some_iff_of_mem_routes hmem).2 ⟨own, hselected, rfl⟩]
    rfl
  obtain ⟨result, hresult⟩ := Option.isSome_iff_exists.1 hanswers
  obtain ⟨front, route, behind, hroutes, hanswer, hfront⟩ := List.findSome?_eq_some_iff.1 hresult
  have hroute : route ∈ program.routes := by simp [hroutes]
  obtain ⟨found, hfound, rfl⟩ := (answer?_eq_some_iff_of_mem_routes hroute).1 hanswer
  have hlater : spelled ∈ route :: behind := by
    rw [hroutes, List.mem_append] at hmem
    rcases hmem with hearlier | hlisted
    · have hlisted : spelled ∈ program.routes := by simp [hroutes, hearlier]
      exact absurd hselected
        ((answer?_eq_none_iff_of_mem_routes hlisted).1 (hfront spelled hearlier) own)
    · exact hlisted
  exact ⟨front, route, behind, found, hroutes, hlater, hfound, hdispatch.trans hresult⟩

/-- A token is expanded for the path of one command only in a list that the full spelling of another
    one does not go through, and never in the list of the program. -/
theorem straysFrom_of_expands {route spelled : Route (Prepared ρ)} (hroute : route ∈ program.routes)
    (hmem : spelled ∈ program.routes) {tokens : List Text} {own : Match}
    (hspelled : spelled.SpelledBy tokens own) {above below : List Step} {step : Step} {token : Text}
    (hsteps : route.steps = above ++ step :: below)
    (htokens : above.map Step.name ++ [token] <+: tokens) (hexpands : step.Expands token) :
    route.StraysFrom spelled tokens := by
  have hbeside : ∀ beside, spelled.steps[above.length]? = some beside →
      beside.siblings ≠ step.siblings := by
    intro beside hlevel
    rw [← List.length_map (f := Step.name)] at hlevel
    exact hspelled.siblings_ne (name_mem_siblings_of_mem_routes hmem) htokens hexpands hlevel
  refine ⟨above, step, below, token, hsteps, ?_, htokens, hexpands, hbeside⟩
  -- otherwise both paths go through the list of the program
  rintro rfl
  obtain ⟨first, firsts, hfirst, hsiblings⟩ := exists_step_of_mem_routes hmem
  obtain ⟨other, others, hother, hothers⟩ := exists_step_of_mem_routes hroute
  rw [hsteps, List.nil_append, List.cons.injEq] at hother
  apply hbeside first
  · rw [hfirst]
    rfl
  · rw [hsiblings, hother.1, hothers]

/-- Where a command is spelled in full, one that stands no later answers. It is spelled in full too,
    or it strays from the way of the first one in another group that is entered by the same
    names. -/
theorem dispatch_of_spelledBy {spelled : Route (Prepared ρ)} (hmem : spelled ∈ program.routes)
    {tokens : List Text} {own : Match} (hspelled : spelled.SpelledBy tokens own) :
    ∃ front route behind found, program.routes = front ++ route :: behind ∧
      spelled ∈ route :: behind ∧ route.SelectedBy tokens found ∧
      program.dispatch tokens = some (route.content.handler found) ∧
      (route.SpelledBy tokens found ∨ route.StraysFrom spelled tokens) := by
  obtain ⟨front, route, behind, found, hroutes, hlater, hselected, hdispatch⟩ :=
    exists_answer_of_selectedBy hmem hspelled.selectedBy
  have hroute : route ∈ program.routes := by simp [hroutes]
  refine ⟨front, route, behind, found, hroutes, hlater, hselected, hdispatch, ?_⟩
  rcases hselected.spelledBy_or_expanded with hfull | ⟨above, step, below, token, hsteps, h⟩
  · left
    exact hfull
  · right
    exact straysFrom_of_expands hroute hmem hspelled hsteps h.1 h.2

/-- A group is tried first whose only command is longer than the token and refuses what is left; the
    command of that name, in a second group of the same name, answers. -/
theorem dispatch_behind_refusing_expansion :
    ∃ (program : Program (Prepared Nat)) (spelled : Route (Prepared Nat)) (own : Match),
      Program.prepare (ρ := Nat) ⟨['p'], none,
          [.group ['a', 'p', 'p'] [.command ['l', 'i', 's', 't'] ⟨['x', ' ', 'y'], fun _ => 0⟩],
            .group ['a', 'p', 'p'] [.command ['l'] ⟨['x'], fun _ => 1⟩]]⟩ = .ok program ∧
        spelled ∈ program.routes ∧ spelled.SpelledBy [['a', 'p', 'p'], ['l'], ['v']] own ∧
        program.dispatch [['a', 'p', 'p'], ['l'], ['v']] = some 1 ∧
        ∃ front route behind found, program.routes = front ++ route :: behind ∧
          spelled ∈ route :: behind ∧ route.SelectedBy [['a', 'p', 'p'], ['l'], ['v']] found ∧
          program.dispatch [['a', 'p', 'p'], ['l'], ['v']] =
            some (route.content.handler found) ∧
          (route.SpelledBy [['a', 'p', 'p'], ['l'], ['v']] found ∨
            route.StraysFrom spelled [['a', 'p', 'p'], ['l'], ['v']]) := by
  refine ⟨_, _, _, rfl, List.mem_cons_of_mem _ List.mem_cons_self, ⟨[['v']], rfl, rfl⟩, rfl, ?_⟩
  exact dispatch_of_spelledBy (List.mem_cons_of_mem _ List.mem_cons_self) ⟨[['v']], rfl, rfl⟩

/-- A command whose path is spelled in full and that matches what is left loses to a command of
    another group of the same name, for whose name the last token is expanded: the answer is that of
    no command that is spelled in full. -/
theorem expansion_before_full_name :
    ∃ (program : Program (Prepared Nat)) (spelled : Route (Prepared Nat)) (own : Match),
      Program.prepare (ρ := Nat) ⟨['p'], none,
          [.group ['a', 'p', 'p'] [.command ['l', 'i', 's', 't'] ⟨[], fun _ => 0⟩],
            .group ['a', 'p', 'p'] [.command ['l'] ⟨[], fun _ => 1⟩]]⟩ = .ok program ∧
        spelled ∈ program.routes ∧ spelled.SpelledBy [['a', 'p', 'p'], ['l']] own ∧
        program.dispatch [['a', 'p', 'p'], ['l']] = some 0 ∧
        ∀ route ∈ program.routes, ∀ found, route.SpelledBy [['a', 'p', 'p'], ['l']] found →
          program.dispatch [['a', 'p', 'p'], ['l']] ≠ some (route.content.handler found) := by
  refine ⟨_, _, _, rfl, List.mem_cons_of_mem _ List.mem_cons_self, ⟨[], rfl, rfl⟩, rfl, ?_⟩
  intro route hroute found hspelled hanswer
  rcases List.mem_cons.1 hroute with rfl | hroute
  · obtain ⟨rest, htokens, -⟩ := hspelled
    simp [Route.behind] at htokens
  · rw [List.mem_singleton.1 hroute] at hanswer
    exact absurd (Option.some.inj hanswer) Nat.zero_ne_one

end Program

end CommandLine

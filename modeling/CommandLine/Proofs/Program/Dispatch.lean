import Mathlib.Data.List.Forall2
import CommandLine.Program.Dispatch

/-!
# Which command answers

A command is reached through the entries on the way to it, with one token for each. A token leads to
an entry by its full name, or by a beginning of the name if it is no name itself and begins no other
name of the list. The commands are tried depth first, in the order in which they were added: the
first one that is reached and matches the tokens that are left answers.

Results:
* `Entry.leavesOfAll_eq_map_routesOfAll`: the routes lead to all commands, in order.
* `Entry.dispatch_eq_findSome?_routesOfAll`: dispatch tries the routes one after the other.
* `Program.dispatch_eq_some_iff`: which command answers, and when there is no answer.
-/

namespace CommandLine

/-! ## Routes -/

/-- A step on the way to a command: the name of the entry that is entered, and the names of all
    entries in the list that holds it. -/
structure Step where
  siblings : List Text
  name : Text

/-- A command with the steps on the way to it, the one to the command itself last. -/
structure Route (α : Type) where
  steps : List Step
  content : α

/-- The route with one more step in front. -/
def Route.behind {α : Type} (step : Step) (route : Route α) : Route α :=
  { route with steps := step :: route.steps }

/-- The token leads to the entry: it is the name of the entry or, if it is the name of no entry in
    the list, a beginning of this name and of no other. The empty token is no beginning. -/
def Step.Admits (step : Step) (token : Text) : Prop :=
  token = step.name ∨
    token ≠ [] ∧ token ∉ step.siblings ∧ token <+: step.name ∧
      ∀ other ∈ step.siblings, token <+: other → other = step.name

variable {α ρ : Type}

/-- The tokens select the command with this match: the first ones lead to it, one for each step, and
    it matches the others. -/
def Route.SelectedBy (route : Route (Prepared ρ)) (tokens : List Text) (found : Match) : Prop :=
  ∃ front rest, tokens = front ++ rest ∧ List.Forall₂ Step.Admits route.steps front ∧
    route.content.registry.fit rest = .ok found

namespace Entry

mutual

/-- The routes to the commands of an entry, depth first and in order; `siblings` are the names in
    the list that holds the entry. -/
def routes (siblings : List Text) : Entry α → List (Route α)
  | .command name content => [⟨[⟨siblings, name⟩], content⟩]
  | .group name entries =>
    (routesOfAll (entries.map Entry.name) entries).map (Route.behind ⟨siblings, name⟩)

/-- The routes to the commands of several entries, depth first and in order; `siblings` are the
    names in the list that holds them. -/
def routesOfAll (siblings : List Text) : List (Entry α) → List (Route α)
  | [] => []
  | entry :: entries => routes siblings entry ++ routesOfAll siblings entries

end

end Entry

/-- The routes to the commands of a program, depth first and in order. -/
def Program.routes (program : Program α) : List (Route α) :=
  Entry.routesOfAll (program.entries.map Entry.name) program.entries

/-- The command at the end of a route below `path`, with the names on the way. -/
def Route.leaf (path : List Text) (route : Route α) : Leaf α :=
  ⟨path ++ route.steps.map Step.name, route.content⟩

namespace Entry

mutual

theorem leaves_eq_map_routes (path siblings : List Text) (entry : Entry α) :
    leaves path entry = (routes siblings entry).map (Route.leaf path) := by
  cases entry with
  | command name content => rfl
  | group name entries =>
    rw [leaves, routes, List.map_map,
      leavesOfAll_eq_map_routesOfAll (path ++ [name]) (entries.map Entry.name) entries]
    refine List.map_congr_left fun route _ => ?_
    show Route.leaf (path ++ [name]) route = Route.leaf path (route.behind ⟨siblings, name⟩)
    simp [Route.leaf, Route.behind]

/-- The routes lead to all commands, in order. -/
theorem leavesOfAll_eq_map_routesOfAll (path siblings : List Text) (entries : List (Entry α)) :
    leavesOfAll path entries = (routesOfAll siblings entries).map (Route.leaf path) := by
  cases entries with
  | nil => rfl
  | cons entry entries =>
    rw [leavesOfAll, routesOfAll, List.map_append, leaves_eq_map_routes path siblings entry,
      leavesOfAll_eq_map_routesOfAll path siblings entries]

end

end Entry

/-! ## Steps -/

/-- A token leads to an entry just if it selects the name of the entry. -/
theorem Step.admits_iff {step : Step} (h : step.name ∈ step.siblings) {token : Text} :
    step.Admits token ↔ selects step.siblings token step.name = true := by
  unfold Step.Admits selects
  by_cases htoken : token ∈ step.siblings
  · rw [if_pos htoken, decide_eq_true_eq]
    constructor
    · intro hadmits
      rcases hadmits with heq | ⟨-, hfresh, -⟩
      · exact heq.symm
      · exact absurd htoken hfresh
    · intro heq
      exact .inl heq.symm
  · have hne : token ≠ step.name := fun heq => htoken (heq ▸ h)
    simp [hne, htoken, and_assoc, List.isPrefixOf_iff_prefix, imp_iff_not_or]

namespace Entry

theorem mem_routesOfAll {siblings : List Text} {entries : List (Entry α)} {route : Route α} :
    route ∈ routesOfAll siblings entries ↔ ∃ entry ∈ entries, route ∈ routes siblings entry := by
  induction entries with
  | nil => simp [routesOfAll]
  | cons entry entries ih => simp [routesOfAll, ih]

/-- A route starts with the step to the entry that it belongs to. -/
theorem exists_of_mem_routes {siblings : List Text} {entry : Entry α} {route : Route α}
    (h : route ∈ routes siblings entry) :
    ∃ inner : Route α, route = inner.behind ⟨siblings, entry.name⟩ := by
  cases entry with
  | command name content =>
    rw [routes, List.mem_singleton] at h
    exact ⟨⟨[], content⟩, h⟩
  | group name entries =>
    rw [routes, List.mem_map] at h
    obtain ⟨inner, -, heq⟩ := h
    exact ⟨inner, heq.symm⟩

mutual

theorem name_mem_siblings_of_routes {siblings : List Text} {entry : Entry α}
    (hentry : entry.name ∈ siblings) :
    ∀ route ∈ routes siblings entry, ∀ step ∈ route.steps, step.name ∈ step.siblings := by
  cases entry with
  | command name content =>
    intro route hroute step hstep
    rw [routes, List.mem_singleton] at hroute
    rw [hroute, List.mem_singleton] at hstep
    rw [hstep]
    exact hentry
  | group name entries =>
    intro route hroute step hstep
    rw [routes, List.mem_map] at hroute
    obtain ⟨inner, hinner, rfl⟩ := hroute
    rcases List.mem_cons.1 hstep with rfl | hstep
    · exact hentry
    · exact name_mem_siblings_of_routesOfAll (fun _ hmem => List.mem_map_of_mem hmem) inner hinner
        step hstep

/-- The entry that a step enters is one of the list. -/
theorem name_mem_siblings_of_routesOfAll {siblings : List Text} {entries : List (Entry α)}
    (hentries : ∀ entry ∈ entries, entry.name ∈ siblings) :
    ∀ route ∈ routesOfAll siblings entries, ∀ step ∈ route.steps, step.name ∈ step.siblings := by
  cases entries with
  | nil => simp [routesOfAll]
  | cons entry entries =>
    intro route hroute
    rw [routesOfAll, List.mem_append] at hroute
    rcases hroute with hroute | hroute
    · exact name_mem_siblings_of_routes (hentries entry List.mem_cons_self) route hroute
    · exact name_mem_siblings_of_routesOfAll
        (fun other hother => hentries other (List.mem_cons_of_mem _ hother)) route hroute

end

end Entry

/-! ## Answers -/

/-- The answer of a command behind these steps, if the tokens lead to it and match. -/
def Prepared.answer? (prepared : Prepared ρ) : List Step → List Text → Option ρ
  | [], tokens =>
    match prepared.registry.fit tokens with
    | .ok found => some (prepared.handler found)
    | .error _ => none
  | _ :: _, [] => none
  | step :: steps, token :: rest =>
    if selects step.siblings token step.name then prepared.answer? steps rest else none

/-- The answer of the command at the end of a route, if the tokens lead to it and match. -/
def Route.answer? (tokens : List Text) (route : Route (Prepared ρ)) : Option ρ :=
  route.content.answer? route.steps tokens

theorem Route.answer?_behind_nil (step : Step) (route : Route (Prepared ρ)) :
    (route.behind step).answer? [] = none := rfl

theorem Route.answer?_behind_cons (step : Step) (route : Route (Prepared ρ)) (token : Text)
    (rest : List Text) :
    (route.behind step).answer? (token :: rest) =
      if selects step.siblings token step.name then route.answer? rest else none := rfl

theorem Route.selectedBy_behind_iff {step : Step} {route : Route (Prepared ρ)}
    {tokens : List Text} {found : Match} :
    (route.behind step).SelectedBy tokens found ↔
      ∃ token rest, tokens = token :: rest ∧ step.Admits token ∧ route.SelectedBy rest found := by
  constructor
  · rintro ⟨front, rest, rfl, hfront, hfit⟩
    cases hfront with
    | @cons _ token _ front hadmits hfront =>
      exact ⟨token, front ++ rest, rfl, hadmits, front, rest, rfl, hfront, hfit⟩
  · rintro ⟨token, tokens, rfl, hadmits, front, rest, rfl, hfront, hfit⟩
    exact ⟨token :: front, rest, rfl, .cons hadmits hfront, hfit⟩

/-- A route has an answer just if the tokens select it. -/
theorem Route.answer?_eq_some_iff {route : Route (Prepared ρ)}
    (h : ∀ step ∈ route.steps, step.name ∈ step.siblings) {tokens : List Text} {result : ρ} :
    route.answer? tokens = some result ↔
      ∃ found, route.SelectedBy tokens found ∧ route.content.handler found = result := by
  obtain ⟨steps, content⟩ := route
  induction steps generalizing tokens with
  | nil =>
    unfold Route.answer? Route.SelectedBy Prepared.answer?
    cases hfit : content.registry.fit tokens <;> simp [hfit]
  | cons step steps ih =>
    have hstep : step.name ∈ step.siblings := h step List.mem_cons_self
    have hsteps : ∀ other ∈ steps, other.name ∈ other.siblings :=
      fun other hother => h other (List.mem_cons_of_mem _ hother)
    show ((⟨steps, content⟩ : Route (Prepared ρ)).behind step).answer? tokens = some result ↔
      ∃ found, ((⟨steps, content⟩ : Route (Prepared ρ)).behind step).SelectedBy tokens found ∧
        content.handler found = result
    simp only [selectedBy_behind_iff]
    cases tokens with
    | nil => simp [answer?_behind_nil]
    | cons token rest =>
      rw [answer?_behind_cons]
      by_cases hadmits : step.Admits token
      · rw [if_pos ((Step.admits_iff hstep).1 hadmits), ih hsteps]
        simp [hadmits]
      · rw [if_neg fun hselects => hadmits ((Step.admits_iff hstep).2 hselects)]
        simp [hadmits]

namespace Entry

theorem findSome?_answer?_nil (siblings : List Text) (entries : List (Entry (Prepared ρ))) :
    (routesOfAll siblings entries).findSome? (Route.answer? []) = none := by
  rw [List.findSome?_eq_none_iff]
  intro route hroute
  obtain ⟨entry, -, hroute⟩ := mem_routesOfAll.1 hroute
  obtain ⟨inner, rfl⟩ := exists_of_mem_routes hroute
  exact Route.answer?_behind_nil _ inner

mutual

theorem findSome?_routes (siblings : List Text) (token : Text) (rest : List Text)
    (entry : Entry (Prepared ρ)) :
    (routes siblings entry).findSome? (Route.answer? (token :: rest)) =
      if selects siblings token entry.name then run rest entry else none := by
  cases entry with
  | command name content =>
    rw [routes, List.findSome?_singleton, run]
    rfl
  | group name entries =>
    rw [routes, List.findSome?_map, run_group, dispatch_eq_findSome?_routesOfAll entries rest]
    show List.findSome? (fun route : Route (Prepared ρ) =>
        if selects siblings token name then route.answer? rest else none) _ =
      if selects siblings token name then _ else none
    by_cases hselects : selects siblings token name = true
    · simp only [if_pos hselects]
    · simp [hselects]
termination_by (sizeOf entry, 0)

/-- The selected entries are tried in order. -/
theorem findSome?_routesOfAll (siblings : List Text) (token : Text) (rest : List Text)
    (entries : List (Entry (Prepared ρ))) :
    (routesOfAll siblings entries).findSome? (Route.answer? (token :: rest)) =
      runSelected (selects siblings token) rest entries := by
  cases entries with
  | nil => rfl
  | cons entry entries =>
    rw [routesOfAll, List.findSome?_append, findSome?_routes siblings token rest entry,
      findSome?_routesOfAll siblings token rest entries, runSelected]
    show _ = match (if selects siblings token entry.name then run rest entry else none) with
      | some result => some result
      | none => runSelected (selects siblings token) rest entries
    cases (if selects siblings token entry.name then run rest entry else none) <;> rfl
termination_by (sizeOf entries, 0)

/-- Dispatch tries the routes one after the other. -/
theorem dispatch_eq_findSome?_routesOfAll (entries : List (Entry (Prepared ρ)))
    (tokens : List Text) :
    dispatch entries tokens =
      (routesOfAll (entries.map Entry.name) entries).findSome? (Route.answer? tokens) := by
  cases tokens with
  | nil => exact (findSome?_answer?_nil (entries.map Entry.name) entries).symm
  | cons token rest =>
    exact (findSome?_routesOfAll (entries.map Entry.name) token rest entries).symm
termination_by (sizeOf entries, 1)

end

end Entry

/-! ## The answer of a program -/

namespace Program

/-- The entries that a route enters are in the lists. -/
theorem name_mem_siblings_of_mem_routes {program : Program α} {route : Route α}
    (hroute : route ∈ program.routes) : ∀ step ∈ route.steps, step.name ∈ step.siblings :=
  Entry.name_mem_siblings_of_routesOfAll (fun _ hmem => List.mem_map_of_mem hmem) route hroute

theorem answer?_eq_some_iff_of_mem_routes {program : Program (Prepared ρ)}
    {route : Route (Prepared ρ)} (hroute : route ∈ program.routes) {tokens : List Text}
    {result : ρ} :
    route.answer? tokens = some result ↔
      ∃ found, route.SelectedBy tokens found ∧ route.content.handler found = result :=
  Route.answer?_eq_some_iff (name_mem_siblings_of_mem_routes hroute)

theorem answer?_eq_none_iff_of_mem_routes {program : Program (Prepared ρ)}
    {route : Route (Prepared ρ)} (hroute : route ∈ program.routes) {tokens : List Text} :
    route.answer? tokens = none ↔ ∀ found, ¬ route.SelectedBy tokens found := by
  rw [Option.eq_none_iff_forall_ne_some]
  simp [answer?_eq_some_iff_of_mem_routes hroute]

/-- The first command, depth first, that the tokens select answers with its match, and there is no
    answer just if they select none. -/
theorem dispatch_eq_some_iff (program : Program (Prepared ρ)) (tokens : List Text) :
    (∀ result, program.dispatch tokens = some result ↔
      ∃ front route rest found, program.routes = front ++ route :: rest ∧
        route.SelectedBy tokens found ∧
        (∀ earlier ∈ front, ∀ other, ¬ earlier.SelectedBy tokens other) ∧
        route.content.handler found = result) ∧
      (program.dispatch tokens = none ↔
        ∀ route ∈ program.routes, ∀ found, ¬ route.SelectedBy tokens found) := by
  have hdispatch : program.dispatch tokens = program.routes.findSome? (Route.answer? tokens) :=
    Entry.dispatch_eq_findSome?_routesOfAll program.entries tokens
  rw [hdispatch]
  constructor
  · intro result
    rw [List.findSome?_eq_some_iff]
    constructor
    · rintro ⟨front, route, rest, hroutes, hanswer, hfront⟩
      have hroute : route ∈ program.routes := by simp [hroutes]
      obtain ⟨found, hselected, hresult⟩ :=
        (answer?_eq_some_iff_of_mem_routes hroute).1 hanswer
      refine ⟨front, route, rest, found, hroutes, hselected, fun earlier hearlier => ?_, hresult⟩
      have hmem : earlier ∈ program.routes := by simp [hroutes, hearlier]
      exact (answer?_eq_none_iff_of_mem_routes hmem).1 (hfront earlier hearlier)
    · rintro ⟨front, route, rest, found, hroutes, hselected, hfront, hresult⟩
      have hroute : route ∈ program.routes := by simp [hroutes]
      refine ⟨front, route, rest, hroutes,
        (answer?_eq_some_iff_of_mem_routes hroute).2 ⟨found, hselected, hresult⟩,
        fun earlier hearlier => ?_⟩
      have hmem : earlier ∈ program.routes := by simp [hroutes, hearlier]
      exact (answer?_eq_none_iff_of_mem_routes hmem).2 (hfront earlier hearlier)
  · rw [List.findSome?_eq_none_iff]
    exact forall₂_congr fun route hroute => answer?_eq_none_iff_of_mem_routes hroute

/-- A token that begins none of the names leads nowhere, even where every name that it begins is
    that of one command. -/
theorem dispatch_of_foreign_token :
    ∃ (program : Program (Prepared Nat)) (route : Route (Prepared Nat)) (step : Step)
        (found : Match),
      Program.prepare (ρ := Nat) ⟨['p'], none, [.command ['r', 'u', 'n'] ⟨[], fun _ => 0⟩]⟩ =
          .ok program ∧
        program.routes = [route] ∧ route.steps = [step] ∧
        (['x'] ≠ [] ∧ ['x'] ∉ step.siblings ∧
          ∀ other ∈ step.siblings, ['x'] <+: other → other = step.name) ∧
        route.content.registry.fit [] = .ok found ∧ program.dispatch [['x']] = none := by
  refine ⟨_, _, _, _, rfl, rfl, rfl, ⟨by simp, by simp [Entry.name], ?_⟩, rfl, rfl⟩
  simp [Entry.name]

end Program

end CommandLine

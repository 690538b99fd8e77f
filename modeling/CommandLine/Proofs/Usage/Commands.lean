import CommandLine.Proofs.Program.Spelling
import CommandLine.Usage.Page

/-!
# The commands on the usage page

The usage page has one line for each command, in the order in which the commands are tried. To say
which command answers, the commands are numbered depth first, and every handler is replaced by one
that answers with the number of its command and the match. Number and line belong together: the
command that answers is the one on the line with its number, the tokens in front of its match begin
the names on this line, and the names on a line, spelled in full, lead to the command of this line
or of an earlier one.

Results:
* `Entry.routesOfAll_numberedAll`: the numbers follow the order of the commands.
* `Program.answers_iff`: the command that answers is the first one that the tokens select.
* `Program.usageLines_agree`: the page agrees with the commands that answer.
-/

namespace CommandLine

variable {ρ : Type}

/-! ## Numbering -/

/-- The command with a handler that answers with this number and the match. -/
def Prepared.numbered (number : Nat) (prepared : Prepared ρ) : Prepared (Nat × Match) :=
  ⟨prepared.registry, fun found => (number, found)⟩

/-- The route to the command with a handler that answers with this number. -/
def Route.numbered (number : Nat) (route : Route (Prepared ρ)) : Route (Prepared (Nat × Match)) :=
  ⟨route.steps, route.content.numbered number⟩

namespace Entry

/-- How many commands an entry has. -/
def commandCount (entry : Entry (Prepared ρ)) : Nat := (leaves [] entry).length

mutual

/-- Numbers the commands of an entry, depth first and from `start`. -/
def numbered (start : Nat) : Entry (Prepared ρ) → Entry (Prepared (Nat × Match))
  | .command name prepared => .command name (prepared.numbered start)
  | .group name entries => .group name (numberedAll start entries)

/-- Numbers the commands of several entries, depth first and from `start`. -/
def numberedAll (start : Nat) : List (Entry (Prepared ρ)) → List (Entry (Prepared (Nat × Match)))
  | [] => []
  | entry :: entries => numbered start entry :: numberedAll (start + entry.commandCount) entries

end

theorem name_numbered (start : Nat) (entry : Entry (Prepared ρ)) :
    (numbered start entry).name = entry.name := by
  cases entry <;> rw [numbered] <;> rfl

theorem map_name_numberedAll (start : Nat) (entries : List (Entry (Prepared ρ))) :
    (numberedAll start entries).map Entry.name = entries.map Entry.name := by
  induction entries generalizing start with
  | nil => rw [numberedAll]; rfl
  | cons entry entries ih => rw [numberedAll, List.map_cons, List.map_cons, name_numbered, ih]

theorem length_routes (siblings : List Text) (entry : Entry (Prepared ρ)) :
    (routes siblings entry).length = entry.commandCount := by
  rw [commandCount, leaves_eq_map_routes [] siblings entry, List.length_map]

theorem mapIdx_numbered_map_behind (start : Nat) (step : Step)
    (routes : List (Route (Prepared ρ))) :
    ((routes.map (Route.behind step)).mapIdx fun place route => route.numbered (start + place)) =
      (routes.mapIdx fun place route => route.numbered (start + place)).map
        (Route.behind step) := by
  refine List.ext_getElem? fun place => ?_
  rw [List.getElem?_mapIdx, List.getElem?_map, List.getElem?_map, List.getElem?_mapIdx]
  cases routes[place]? <;> rfl

mutual

theorem routes_numbered (start : Nat) (siblings : List Text) (entry : Entry (Prepared ρ)) :
    routes siblings (numbered start entry) =
      (routes siblings entry).mapIdx fun place route => route.numbered (start + place) := by
  cases entry with
  | command name prepared =>
    rw [numbered, routes, routes]
    rfl
  | group name entries =>
    rw [numbered, routes, routes, map_name_numberedAll, mapIdx_numbered_map_behind,
      routesOfAll_numberedAll start (entries.map Entry.name) entries]

/-- The numbers follow the order of the commands. -/
theorem routesOfAll_numberedAll (start : Nat) (siblings : List Text)
    (entries : List (Entry (Prepared ρ))) :
    routesOfAll siblings (numberedAll start entries) =
      (routesOfAll siblings entries).mapIdx fun place route => route.numbered (start + place) := by
  cases entries with
  | nil => rfl
  | cons entry entries =>
    rw [numberedAll, routesOfAll, routesOfAll, List.mapIdx_append,
      routes_numbered start siblings entry,
      routesOfAll_numberedAll (start + entry.commandCount) siblings entries, length_routes]
    simp only [Nat.add_assoc, Nat.add_comm entry.commandCount]

end

end Entry

namespace Program

/-- The program with handlers that answer with the number of their command and the match. -/
def numbered (program : Program (Prepared ρ)) : Program (Prepared (Nat × Match)) :=
  { program with entries := Entry.numberedAll 0 program.entries }

theorem getElem?_routes_numbered (program : Program (Prepared ρ)) (number : Nat) :
    program.numbered.routes[number]? = program.routes[number]?.map (Route.numbered number) := by
  rw [routes, numbered, Entry.map_name_numberedAll, Entry.routesOfAll_numberedAll,
    List.getElem?_mapIdx, Nat.zero_add]
  rfl

/-- The tokens are answered by the command with this number, on this match. -/
def Answers (program : Program (Prepared ρ)) (tokens : List Text) (number : Nat)
    (found : Match) : Prop :=
  program.numbered.dispatch tokens = some (number, found)

/-- The commands with the names on their paths, depth first and in order. -/
def commands {α : Type} (program : Program α) : List (Leaf α) :=
  Entry.leavesOfAll [] program.entries

theorem commands_eq_map_routes {α : Type} (program : Program α) :
    program.commands = program.routes.map (Route.leaf []) :=
  Entry.leavesOfAll_eq_map_routesOfAll [] (program.entries.map Entry.name) program.entries

/-! ## The command that answers -/

/-- The command at the end of the route has this number, and it is the first one that the tokens
    select. -/
structure SelectsFirst (program : Program (Prepared ρ)) (tokens : List Text) (number : Nat)
    (route : Route (Prepared ρ)) (found : Match) : Prop where
  route_eq : program.routes[number]? = some route
  selectedBy : route.SelectedBy tokens found
  not_earlier : ∀ earlier < number, ∀ other, program.routes[earlier]? = some other →
    ∀ elsewhere, ¬ other.SelectedBy tokens elsewhere

variable {program : Program (Prepared ρ)} {tokens : List Text}

theorem dispatch_eq_findSome?_routes (program : Program (Prepared ρ)) (tokens : List Text) :
    program.dispatch tokens = program.routes.findSome? (Route.answer? tokens) :=
  Entry.dispatch_eq_findSome?_routesOfAll program.entries tokens

/-- An answer is that of the first command that the tokens select. -/
theorem dispatch_eq_some_iff_selectsFirst {result : ρ} :
    program.dispatch tokens = some result ↔
      ∃ number route found, program.SelectsFirst tokens number route found ∧
        route.content.handler found = result := by
  rw [dispatch_eq_findSome?_routes]
  constructor
  · intro hdispatch
    rw [List.findSome?_eq_some_iff] at hdispatch
    obtain ⟨front, route, behind, hroutes, hanswer, hfront⟩ := hdispatch
    have hnumber : program.routes[front.length]? = some route := by simp [hroutes]
    obtain ⟨found, hselected, hresult⟩ :=
      (answer?_eq_some_iff_of_mem_routes (List.mem_of_getElem? hnumber)).1 hanswer
    refine ⟨front.length, route, found, ⟨hnumber, hselected, ?_⟩, hresult⟩
    intro earlier hearlier other hother
    have hmem : other ∈ program.routes := List.mem_of_getElem? hother
    rw [hroutes, List.getElem?_append_left hearlier] at hother
    exact (answer?_eq_none_iff_of_mem_routes hmem).1
      (hfront other (List.mem_of_getElem? hother))
  · rintro ⟨number, route, found, hfirst, hresult⟩
    obtain ⟨hlt, hroute⟩ := List.getElem?_eq_some_iff.1 hfirst.route_eq
    -- the list is cut at the number of the route
    rw [List.findSome?_eq_some_iff]
    refine ⟨program.routes.take number, route, program.routes.drop (number + 1), ?_, ?_, ?_⟩
    · rw [← hroute, ← List.drop_eq_getElem_cons hlt, List.take_append_drop]
    · exact (answer?_eq_some_iff_of_mem_routes (List.mem_of_getElem? hfirst.route_eq)).2
        ⟨found, hfirst.selectedBy, hresult⟩
    · intro other hother
      obtain ⟨earlier, hearlier⟩ := List.mem_iff_getElem?.1 hother
      rw [List.getElem?_take] at hearlier
      split at hearlier
      · exact (answer?_eq_none_iff_of_mem_routes (List.mem_of_getElem? hearlier)).2
          (hfirst.not_earlier earlier ‹_› other hearlier)
      · cases hearlier

/-- There is no answer just if the tokens select no command. -/
theorem dispatch_eq_none_iff_not_selectedBy :
    program.dispatch tokens = none ↔
      ∀ route ∈ program.routes, ∀ found, ¬ route.SelectedBy tokens found := by
  rw [dispatch_eq_findSome?_routes, List.findSome?_eq_none_iff]
  exact forall₂_congr fun route hroute => answer?_eq_none_iff_of_mem_routes hroute

/-- The command that answers is the first one that the tokens select. -/
theorem answers_iff {number : Nat} {found : Match} :
    program.Answers tokens number found ↔
      ∃ route, program.SelectsFirst tokens number route found := by
  rw [Answers, dispatch_eq_some_iff_selectsFirst]
  constructor
  · rintro ⟨place, route', found', hfirst, hresult⟩
    have hroute := hfirst.route_eq
    rw [getElem?_routes_numbered, Option.map_eq_some_iff] at hroute
    obtain ⟨route, hroute, rfl⟩ := hroute
    obtain ⟨rfl, rfl⟩ : place = number ∧ found' = found := Prod.mk.injEq .. ▸ hresult
    refine ⟨route, hroute, hfirst.selectedBy, fun earlier hearlier other hother => ?_⟩
    refine hfirst.not_earlier earlier hearlier (other.numbered earlier) ?_
    rw [getElem?_routes_numbered, hother, Option.map_some]
  · rintro ⟨route, hfirst⟩
    refine ⟨number, route.numbered number, found, ⟨?_, hfirst.selectedBy, ?_⟩, rfl⟩
    · rw [getElem?_routes_numbered, hfirst.route_eq, Option.map_some]
    · intro earlier hearlier other hother
      rw [getElem?_routes_numbered, Option.map_eq_some_iff] at hother
      obtain ⟨other, hother, rfl⟩ := hother
      exact hfirst.not_earlier earlier hearlier other hother

/-- The command that answers gives its own answer. -/
theorem SelectsFirst.dispatch_eq {number : Nat} {route : Route (Prepared ρ)} {found : Match}
    (h : program.SelectsFirst tokens number route found) :
    program.dispatch tokens = some (route.content.handler found) :=
  dispatch_eq_some_iff_selectsFirst.2 ⟨number, route, found, h, rfl⟩

/-- Where the tokens select a command, this one answers or an earlier one. -/
theorem exists_answers_of_selectedBy {number : Nat} {route : Route (Prepared ρ)}
    {found : Match} (hroute : program.routes[number]? = some route)
    (hselected : route.SelectedBy tokens found) :
    ∃ earlier other, earlier ≤ number ∧ program.Answers tokens earlier other := by
  obtain ⟨result, hresult⟩ : ∃ result, program.dispatch tokens = some result := by
    rw [← Option.ne_none_iff_exists', ne_eq, dispatch_eq_none_iff_not_selectedBy]
    intro hnone
    exact hnone route (List.mem_of_getElem? hroute) found hselected
  obtain ⟨earlier, first, other, hfirst, -⟩ := dispatch_eq_some_iff_selectsFirst.1 hresult
  refine ⟨earlier, other, ?_, answers_iff.2 ⟨first, hfirst⟩⟩
  by_contra hlater
  exact hfirst.not_earlier number (by omega) route hroute found hselected

/-- There is no answer just if no command answers. -/
theorem dispatch_eq_none_iff_not_answers :
    program.dispatch tokens = none ↔ ∀ number found, ¬ program.Answers tokens number found := by
  constructor
  · intro hnone number found hanswers
    obtain ⟨route, hfirst⟩ := answers_iff.1 hanswers
    rw [hfirst.dispatch_eq] at hnone
    cases hnone
  · intro hnone
    rw [dispatch_eq_none_iff_not_selectedBy]
    intro route hroute found hselected
    obtain ⟨number, hnumber⟩ := List.mem_iff_getElem?.1 hroute
    obtain ⟨earlier, other, -, hanswers⟩ := exists_answers_of_selectedBy hnumber hselected
    exact hnone earlier other hanswers

end Program

/-! ## The page -/

/-- A token that leads to an entry begins its name. -/
theorem Step.Admits.isPrefix {step : Step} {token : Text} (h : step.Admits token) :
    token <+: step.name := by
  rcases h with rfl | ⟨-, -, hbegins, -⟩
  · exact List.prefix_rfl
  · exact hbegins

namespace Program

/-- The commands of the page are those of the program, behind its name. -/
theorem leavesOfAll_eq_map_commands {α : Type} (program : Program α) :
    Entry.leavesOfAll [program.name] program.entries =
      program.commands.map fun leaf => { leaf with path := program.name :: leaf.path } := by
  rw [commands_eq_map_routes, List.map_map,
    Entry.leavesOfAll_eq_map_routesOfAll _ (program.entries.map Entry.name)]
  rfl

theorem getElem?_commands {program : Program (Prepared ρ)} {number : Nat}
    {leaf : Leaf (Prepared ρ)} :
    program.commands[number]? = some leaf ↔
      ∃ route, program.routes[number]? = some route ∧
        leaf = ⟨route.steps.map Step.name, route.content⟩ := by
  rw [commands_eq_map_routes, List.getElem?_map, Option.map_eq_some_iff]
  exact exists_congr fun route => and_congr_right fun _ => eq_comm

/-- The page has one line for each command, with its path, its definition and its description. The
    tokens in front of a match begin the names on the line of the command that answers, and the
    names on a line with tokens that match are answered by the command of the line or by one
    before it. -/
theorem usageLines_agree (program : Program (Prepared ρ)) (width : Width) :
    ∃ lines : List Text,
      usageLines width program =
        program.description.elim [] (descriptionLines width) ++ "Usage:".toList :: lines ∧
      lines.length = program.commands.length ∧
      (∀ number leaf, program.commands[number]? = some leaf →
        lines[number]? = some ([' ', ' '] ++ Text.joinWords (program.name :: leaf.path)
          ++ (if leaf.content.registry.render = [] then []
            else ' ' :: leaf.content.registry.render)
          ++ leaf.content.registry.description.elim [] ([' ', ' ', '-', '-', ' '] ++ ·)) ∧
        ∀ rest found, leaf.content.registry.fit rest = .ok found →
          ∃ earlier other, earlier ≤ number ∧
            program.Answers (leaf.path ++ rest) earlier other) ∧
      (∀ tokens number found, program.Answers tokens number found →
        ∃ leaf front rest, program.commands[number]? = some leaf ∧ tokens = front ++ rest ∧
          List.Forall₂ (· <+: ·) front leaf.path ∧ leaf.content.registry.fit rest = .ok found ∧
          program.dispatch tokens = some (leaf.content.handler found)) ∧
      (∀ tokens, program.dispatch tokens = none ↔
        ∀ number found, ¬ program.Answers tokens number found) := by
  refine ⟨(Entry.leavesOfAll [program.name] program.entries).map usageLine, rfl, ?_, ?_, ?_,
    fun tokens => dispatch_eq_none_iff_not_answers⟩
  · rw [leavesOfAll_eq_map_commands, List.length_map, List.length_map]
  · intro number leaf hleaf
    constructor
    · rw [leavesOfAll_eq_map_commands, List.getElem?_map, List.getElem?_map, hleaf]
      rfl
    · intro rest found hfit
      obtain ⟨route, hroute, rfl⟩ := getElem?_commands.1 hleaf
      have hspelled : route.SpelledBy (route.steps.map Step.name ++ rest) found :=
        ⟨rest, rfl, hfit⟩
      exact exists_answers_of_selectedBy hroute hspelled.selectedBy
  · intro tokens number found hanswers
    obtain ⟨route, hfirst⟩ := answers_iff.1 hanswers
    obtain ⟨front, rest, htokens, hadmits, hfit⟩ := hfirst.selectedBy
    refine ⟨⟨route.steps.map Step.name, route.content⟩, front, rest,
      getElem?_commands.2 ⟨route, hfirst.route_eq, rfl⟩, htokens, ?_, hfit, hfirst.dispatch_eq⟩
    rw [List.forall₂_map_right_iff]
    exact hadmits.flip.imp fun _ _ => Step.Admits.isPrefix

end Program

end CommandLine

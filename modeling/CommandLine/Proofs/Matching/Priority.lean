import Mathlib.Algebra.BigOperators.Group.Finset.Basic
import CommandLine.Proofs.Matching.Conservation

/-!
# Which groups are served

The optional groups compete for the tokens that the mandatory arguments leave over. A group in front
of an earlier mandatory argument comes first; in front of the same one, a larger group does, and
after that the order of declaration decides. Serving each group in turn that still fits is the best
choice in this order: wherever another choice that can be afforded differs from it for the first
time, it serves the group and the other one does not. So no group is left out that would still fit.

Results:
* `chooseGroups_first`: where another choice differs for the first time.
* `Layout.pairwise_precedes_ranked`: the groups are tried in the order of precedence.
* `Registry.servesBest_of_fit`: the groups that a match serves.
-/

namespace CommandLine

/-! ## Each group in turn -/

/-- A choice that can be afforded differs for the first time where a group is served that it leaves
    out. -/
theorem chooseGroups_first {spare : Nat} {groups others : List ArgumentGroup}
    (hnodup : groups.Nodup) (hsublist : others.Sublist groups)
    (hspare : (others.flatMap ArgumentGroup.members).length ≤ spare)
    (hne : others ≠ chooseGroups spare groups) :
    ∃ front group rest, groups = front ++ group :: rest ∧ group ∈ chooseGroups spare groups ∧
      group ∉ others ∧
      ∀ earlier ∈ front, (earlier ∈ chooseGroups spare groups ↔ earlier ∈ others) := by
  induction groups generalizing spare others with
  | nil =>
    rw [List.sublist_nil] at hsublist
    exact absurd hsublist hne
  | cons first groups ih =>
    obtain ⟨hfirst, hnodup⟩ := List.nodup_cons.1 hnodup
    have hchosen : ∀ spare, first ∉ chooseGroups spare groups :=
      fun spare hmem => hfirst ((chooseGroups_sublist spare groups).mem hmem)
    by_cases hfits : first.members.length ≤ spare
    · rw [chooseGroups, if_pos hfits] at hne ⊢
      cases hsublist with
      | cons _ hsublist =>
        -- the other choice leaves out the very first group
        exact ⟨[], first, groups, rfl, List.mem_cons_self, fun hmem => hfirst (hsublist.mem hmem),
          by simp⟩
      | @cons_cons others _ _ hsublist =>
        have hothers : first ∉ others := fun hmem => hfirst (hsublist.mem hmem)
        rw [List.flatMap_cons, List.length_append] at hspare
        have hne' : others ≠ chooseGroups (spare - first.members.length) groups :=
          fun heq => hne (heq ▸ rfl)
        obtain ⟨front, group, rest, hgroups, hmem, hnot, hfront⟩ :=
          ih hnodup hsublist (by omega) hne'
        have hgroup : group ≠ first := fun heq => hchosen _ (heq ▸ hmem)
        refine ⟨first :: front, group, rest, by rw [hgroups, List.cons_append],
          List.mem_cons_of_mem _ hmem, by simp [hgroup, hnot], fun earlier hearlier => ?_⟩
        rcases List.mem_cons.1 hearlier with rfl | hearlier
        · simp
        · rw [List.mem_cons, List.mem_cons, hfront earlier hearlier]
    · rw [chooseGroups, if_neg hfits] at hne ⊢
      cases hsublist with
      | cons _ hsublist =>
        obtain ⟨front, group, rest, hgroups, hmem, hnot, hfront⟩ := ih hnodup hsublist hspare hne
        refine ⟨first :: front, group, rest, by rw [hgroups, List.cons_append], hmem, hnot,
          fun earlier hearlier => ?_⟩
        rcases List.mem_cons.1 hearlier with rfl | hearlier
        · exact iff_of_false (hchosen _) fun hmem => hfirst (hsublist.mem hmem)
        · exact hfront earlier hearlier
      | cons_cons _ hsublist =>
        rw [List.flatMap_cons, List.length_append] at hspare
        omega

namespace Layout

/-! ## Precedence -/

/-- How many arguments are in the group with this number. -/
def groupSize (arguments : List Declaration) (number : Nat) : Nat :=
  arguments.countP fun argument => argument.group = some number

/-- How many mandatory arguments are declared in front of the group with this number. -/
def mandatoryBefore (arguments : List Declaration) (number : Nat) : Nat :=
  (arguments.takeWhile fun argument => argument.group ≠ some number).countP
    fun argument => !argument.isOptional

/-- The first group takes precedence over the second one: it stands in front of an earlier mandatory
    argument or, in front of the same one, it is larger or else, at the same size, declared
    earlier. -/
def Precedes (arguments : List Declaration) (number other : Nat) : Prop :=
  mandatoryBefore arguments number < mandatoryBefore arguments other ∨
    mandatoryBefore arguments number = mandatoryBefore arguments other ∧
      (groupSize arguments other < groupSize arguments number ∨
        groupSize arguments number = groupSize arguments other ∧ number < other)

variable {layout : Layout} {arguments : List Declaration} {argument : Declaration}
  {number other : Nat}

theorem Precedes.asymm (h : Precedes arguments number other) :
    ¬ Precedes arguments other number := by
  unfold Precedes at h ⊢
  omega

theorem Precedes.irrefl (arguments : List Declaration) (number : Nat) :
    ¬ Precedes arguments number number := by
  unfold Precedes
  omega

theorem Divides.size_eq (h : layout.Divides arguments) {group : ArgumentGroup}
    (hgroup : group ∈ layout.groups) : group.size = groupSize arguments group.number := by
  rw [ArgumentGroup.size, h.members group hgroup, membersOf, List.length_map, groupSize,
    List.countP_eq_length_filter]

/-! ## Groups of one row -/

/-- In one row, a larger group outranks a smaller one, and an earlier group one of its size. -/
def Outranks (group other : ArgumentGroup) : Prop :=
  other.size < group.size ∨ group.size = other.size ∧ group.number < other.number

theorem insertBySize_cons (group other : ArgumentGroup) (others : List ArgumentGroup) :
    insertBySize group (other :: others) =
      if other.size ≤ group.size then group :: other :: others
      else other :: insertBySize group others := rfl

theorem pairwise_insertBySize {group : ArgumentGroup} {groups : List ArgumentGroup}
    (hgroups : groups.Pairwise Outranks) (hfirst : ∀ other ∈ groups, group.number < other.number) :
    (insertBySize group groups).Pairwise Outranks := by
  induction groups with
  | nil => exact List.pairwise_singleton _ _
  | cons other others ih =>
    obtain ⟨hother, hothers⟩ := List.pairwise_cons.1 hgroups
    by_cases hsize : other.size ≤ group.size
    · rw [insertBySize_cons, if_pos hsize, List.pairwise_cons]
      refine ⟨fun later hlater => ?_, hgroups⟩
      have hnumber := hfirst later hlater
      have hle : later.size ≤ other.size := by
        rcases List.mem_cons.1 hlater with rfl | hlater
        · exact le_rfl
        · have := hother later hlater
          unfold Outranks at this
          omega
      unfold Outranks
      omega
    · rw [insertBySize_cons, if_neg hsize, List.pairwise_cons]
      refine ⟨fun later hlater => ?_,
        ih hothers fun later hlater => hfirst later (List.mem_cons_of_mem _ hlater)⟩
      rw [insertBySize_eq_orderedInsert, List.mem_orderedInsert] at hlater
      rcases hlater with rfl | hlater
      · exact .inl (by omega)
      · exact hother later hlater

theorem pairwise_bySize {row : List ArgumentGroup}
    (h : (row.map ArgumentGroup.number).Pairwise (· < ·)) :
    (bySize row).Pairwise Outranks := by
  induction row with
  | nil => exact .nil
  | cons group row ih =>
    obtain ⟨hfirst, hrow⟩ := List.pairwise_cons.1 h
    refine pairwise_insertBySize (ih hrow) fun other hother => ?_
    exact hfirst _ (List.mem_map_of_mem ((bySize_perm row).mem_iff.1 hother))

/-! ## The rows -/

/-- The rows of groups, one in front of each mandatory argument and one at the end. -/
def rows (layout : Layout) : List (List ArgumentGroup) := layout.leading :: layout.following

theorem ranked_eq_flatMap_rows (layout : Layout) : layout.ranked = layout.rows.flatMap bySize :=
  rfl

/-- The groups of a row stand behind as many mandatory arguments as there are rows in front of
    it. -/
def Placed (layout : Layout) (arguments : List Declaration) : Prop :=
  ∀ (place : Nat) (row : List ArgumentGroup), layout.rows[place]? = some row →
    ∀ group ∈ row, mandatoryBefore arguments group.number = place

theorem mandatoryBefore_cons_of_none (h : argument.group = none) :
    mandatoryBefore (argument :: arguments) number = mandatoryBefore arguments number + 1 := by
  simp [mandatoryBefore, h, Declaration.isOptional]

theorem mandatoryBefore_cons_of_eq (h : argument.group = some number) :
    mandatoryBefore (argument :: arguments) number = 0 := by
  simp [mandatoryBefore, h]

theorem mandatoryBefore_cons_of_ne (h : argument.group = some other) (hne : other ≠ number) :
    mandatoryBefore (argument :: arguments) number = mandatoryBefore arguments number := by
  simp [mandatoryBefore, h, hne, Declaration.isOptional]

theorem Placed.push_mandatory (h : layout.Placed arguments) (hgroup : argument.group = none) :
    (push argument layout).Placed (argument :: arguments) := by
  have hrows : (push argument layout).rows = [] :: layout.rows := by simp [push, hgroup, rows]
  intro place row hrow group hmem
  rw [hrows] at hrow
  cases place with
  | zero =>
    have hnil : row = [] := by simpa using hrow.symm
    rw [hnil] at hmem
    cases hmem
  | succ place =>
    rw [mandatoryBefore_cons_of_none hgroup, h place row (by simpa using hrow) group hmem]

theorem Placed.push_optional (h : layout.Placed arguments)
    (habove : layout.Above (some number) number) (hgroup : argument.group = some number) :
    (push argument layout).Placed (argument :: arguments) := by
  have hrows : (push argument layout).rows =
      pushMember number argument.name layout.leading :: layout.following := by
    simp [push, hgroup, rows]
  intro place row hrow group hmem
  rw [hrows] at hrow
  by_cases hnumber : number = group.number
  · -- the group that the argument joins is in the first row
    rw [mandatoryBefore_cons_of_eq (hnumber ▸ hgroup)]
    cases place with
    | zero => rfl
    | succ place =>
      have hfollowing : row ∈ layout.following := List.mem_of_getElem? (by simpa using hrow)
      have hlt := habove.following group (List.mem_flatten.2 ⟨row, hfollowing, hmem⟩)
      omega
  · rw [mandatoryBefore_cons_of_ne hgroup hnumber]
    cases place with
    | zero =>
      have hpushed : group ∈ pushMember number argument.name layout.leading := by
        have heq : pushMember number argument.name layout.leading = row := by simpa using hrow
        rw [heq]
        exact hmem
      have hleading : group ∈ layout.leading := by
        obtain ⟨members, others, hpush, hold⟩ :=
          exists_pushMember argument.name layout.leading number
        rw [hpush] at hpushed
        have hothers : group ∈ others := by
          rcases List.mem_cons.1 hpushed with heq | hothers
          · exact absurd (by rw [heq]) hnumber
          · exact hothers
        rcases hold with hold | ⟨hold, -⟩
        · exact hold ▸ List.mem_cons_of_mem _ hothers
        · exact hold ▸ hothers
      exact h 0 layout.leading rfl group hleading
    | succ place => exact h (place + 1) row (by simpa [rows] using hrow) group hmem

/-- An option that is no argument leaves the layout as it is. -/
theorem Placed.cons_option {option : Declaration} {options : List Declaration}
    (h : (ofArguments (options.filter Declaration.isArgument)).Placed
      (options.filter Declaration.isArgument))
    (hpush : (push option (ofArguments (options.filter Declaration.isArgument))).Placed
      (option :: options.filter Declaration.isArgument)) :
    (ofArguments ((option :: options).filter Declaration.isArgument)).Placed
      ((option :: options).filter Declaration.isArgument) := by
  cases hargument : option.isArgument with
  | true =>
    rw [List.filter_cons_of_pos hargument]
    exact hpush
  | false =>
    rw [List.filter_cons_of_neg (by simp [hargument])]
    exact h

/-- In the layout of numbered options the groups are in their rows. -/
theorem placed_of_numbered {previous : Option Nat} {opened : Nat} {options : List Declaration}
    (h : Registry.Numbered previous opened options) :
    (ofArguments (options.filter Declaration.isArgument)).Placed
      (options.filter Declaration.isArgument) := by
  induction h with
  | nil =>
    intro place row hrow group hmem
    have hrow' : [[]][place]? = some row := hrow
    have hnil : row = [] := by simpa using List.mem_of_getElem? hrow'
    rw [hnil] at hmem
    cases hmem
  | mandatory hgroup _ ih => exact ih.cons_option (ih.push_mandatory hgroup)
  | opens hgroup hrest ih =>
    exact ih.cons_option (ih.push_optional (divides_of_numbered hrest).2 hgroup)
  | continues hgroup hrest ih =>
    exact ih.cons_option (ih.push_optional (divides_of_numbered hrest).2 hgroup)

/-- The groups are tried in the order of precedence. -/
theorem pairwise_precedes_ranked (hdivides : layout.Divides arguments)
    (hplaced : layout.Placed arguments) :
    layout.ranked.Pairwise fun group other =>
      Precedes arguments group.number other.number := by
  rw [ranked_eq_flatMap_rows, List.pairwise_flatMap]
  constructor
  · intro row hrow
    obtain ⟨place, hplace⟩ := List.mem_iff_getElem?.1 hrow
    have hsublist : row.Sublist layout.groups := List.sublist_flatten_of_mem hrow
    have houtranks := pairwise_bySize (hdivides.ascending.sublist (hsublist.map _))
    refine houtranks.imp_of_mem fun {group other} hgroup hother h => ?_
    have hgroup' := (bySize_perm row).mem_iff.1 hgroup
    have hother' := (bySize_perm row).mem_iff.1 hother
    rw [Outranks, hdivides.size_eq (hsublist.mem hgroup'),
      hdivides.size_eq (hsublist.mem hother')] at h
    have hsame := (hplaced place row hplace group hgroup').trans
      (hplaced place row hplace other hother').symm
    exact .inr ⟨hsame, h⟩
  · rw [List.pairwise_iff_getElem]
    intro i j hi hj hlt group hgroup other hother
    have hgroup' := (bySize_perm layout.rows[i]).mem_iff.1 hgroup
    have hother' := (bySize_perm layout.rows[j]).mem_iff.1 hother
    have hi' := hplaced i _ (List.getElem?_eq_getElem hi) group hgroup'
    have hj' := hplaced j _ (List.getElem?_eq_getElem hj) other hother'
    exact .inl (by omega)

end Layout

namespace Registry

variable {registry : Registry} {tokens : List Text} {pieces : List Piece}

/-! ## Choices of groups -/

/-- The numbers of the optional groups that hold arguments. -/
def argumentGroups (registry : Registry) : Finset Nat :=
  (registry.arguments.filterMap Declaration.group).toFinset

/-- How many arguments these groups hold together. -/
def demand (registry : Registry) (numbers : Finset Nat) : Nat :=
  ∑ number ∈ numbers, Layout.groupSize registry.arguments number

/-- The numbers of the groups whose arguments are all bound. -/
def boundGroups (registry : Registry) (found : Match) : Finset Nat :=
  registry.argumentGroups.filter fun number =>
    ∀ argument ∈ registry.arguments, argument.group = some number →
      found.contains argument.name = true

/-- The order in which the groups are tried. -/
def ranked (registry : Registry) : List ArgumentGroup :=
  (Layout.ofArguments registry.arguments).ranked

theorem mem_argumentGroups_iff {number : Nat} :
    number ∈ registry.argumentGroups ↔
      ∃ argument ∈ registry.arguments, argument.group = some number := by
  simp [argumentGroups]

theorem mem_ranked_iff {group : ArgumentGroup} :
    group ∈ registry.ranked ↔ group ∈ (Layout.ofArguments registry.arguments).groups :=
  (Layout.ranked_perm _).mem_iff

theorem nodup_numbers_ranked (h : registry.WellFormed) :
    (registry.ranked.map ArgumentGroup.number).Nodup :=
  ((Layout.ranked_perm _).map _).nodup_iff.2 (h.divides.ascending.imp Nat.ne_of_lt)

/-- The groups that are tried are those that hold arguments. -/
theorem toFinset_numbers_ranked (h : registry.WellFormed) :
    (registry.ranked.map ArgumentGroup.number).toFinset = registry.argumentGroups := by
  ext number
  rw [List.mem_toFinset, mem_argumentGroups_iff]
  constructor
  · intro hnumber
    obtain ⟨group, hgroup, rfl⟩ := List.mem_map.1 hnumber
    rw [mem_ranked_iff] at hgroup
    obtain ⟨name, hname⟩ := List.exists_mem_of_ne_nil _ (h.divides.nonempty group hgroup)
    rw [h.divides.members group hgroup, Layout.membersOf, List.mem_map] at hname
    obtain ⟨argument, hargument, -⟩ := hname
    rw [List.mem_filter] at hargument
    exact ⟨argument, hargument.1, by simpa using hargument.2⟩
  · rintro ⟨argument, hargument, hnumber⟩
    have hcomplete := h.divides.complete argument hargument number hnumber
    exact ((Layout.ranked_perm _).map _).mem_iff.2 hcomplete

theorem demand_toFinset (h : registry.WellFormed) {groups : List ArgumentGroup}
    (hsublist : groups.Sublist registry.ranked) :
    registry.demand (groups.map ArgumentGroup.number).toFinset =
      (groups.flatMap ArgumentGroup.members).length := by
  have hsize : ∀ group ∈ groups,
      Layout.groupSize registry.arguments group.number = group.members.length := fun group hgroup =>
    (h.divides.size_eq (mem_ranked_iff.1 (hsublist.mem hgroup))).symm
  rw [demand, List.sum_toFinset _ ((hsublist.map _).nodup (nodup_numbers_ranked h)),
    List.map_map, List.length_flatMap]
  exact congrArg List.sum (List.map_congr_left hsize)

/-- A group is known by its number. -/
theorem number_mem_map_iff (h : registry.WellFormed) {groups : List ArgumentGroup}
    (hsublist : groups.Sublist registry.ranked) {group : ArgumentGroup}
    (hgroup : group ∈ registry.ranked) :
    group.number ∈ groups.map ArgumentGroup.number ↔ group ∈ groups := by
  constructor
  · intro hnumber
    obtain ⟨other, hother, heq⟩ := List.mem_map.1 hnumber
    have hsame : other = group := List.inj_on_of_nodup_map (nodup_numbers_ranked h)
      (hsublist.mem hother) hgroup heq
    exact hsame ▸ hother
  · exact List.mem_map_of_mem

/-! ## The bound groups -/

theorem chosen_sublist (supply : Nat) : (registry.chosen supply).Sublist registry.ranked :=
  chooseGroups_sublist _ _

/-- A group is bound just if it is served. -/
theorem boundGroups_matchOf (h : registry.WellFormed)
    (henough : registry.mandatoryArguments.length ≤ (positionals pieces).length) :
    registry.boundGroups (registry.matchOf pieces) = (registry.served pieces).toFinset := by
  have hcontains : ∀ number, ∀ argument ∈ registry.arguments, argument.group = some number →
      ((registry.matchOf pieces).contains argument.name = true ↔
        number ∈ registry.served pieces) := by
    intro number argument hargument hgroup
    rw [contains_argument h henough hargument, receives, hgroup]
    exact List.contains_iff_mem
  ext number
  rw [boundGroups, Finset.mem_filter, List.mem_toFinset]
  constructor
  · rintro ⟨hnumber, hbound⟩
    obtain ⟨argument, hargument, hgroup⟩ := mem_argumentGroups_iff.1 hnumber
    exact (hcontains number argument hargument hgroup).1 (hbound argument hargument hgroup)
  · intro hserved
    constructor
    · rw [← toFinset_numbers_ranked h, List.mem_toFinset]
      exact ((chosen_sublist _).map _).mem hserved
    · intro argument hargument hgroup
      exact (hcontains number argument hargument hgroup).2 hserved

theorem demand_boundGroups_matchOf (h : registry.WellFormed)
    (henough : registry.mandatoryArguments.length ≤ (positionals pieces).length) :
    registry.mandatoryArguments.length +
        registry.demand (registry.boundGroups (registry.matchOf pieces)) =
      (registry.slots (positionals pieces).length).length := by
  rw [boundGroups_matchOf h henough, length_slots h, mandatoryCount_eq, served,
    demand_toFinset h (chosen_sublist _)]

/-! ## Matches -/

/-- The groups that a match serves are the best that can be afforded. -/
structure ServesBest (registry : Registry) (pieces : List Piece) (found : Match) : Prop where
  /-- There are tokens for the mandatory arguments and for the bound groups. -/
  affordable : registry.mandatoryArguments.length + registry.demand (registry.boundGroups found) ≤
    (positionals pieces).length
  /-- Any other groups for which there are tokens differ for the first time where a group is bound
      that is not among them. -/
  best : ∀ others ⊆ registry.argumentGroups,
    registry.mandatoryArguments.length + registry.demand others ≤ (positionals pieces).length →
      others ≠ registry.boundGroups found →
        ∃ number ∈ registry.boundGroups found, number ∉ others ∧
          ∀ earlier ∈ registry.argumentGroups,
            Layout.Precedes registry.arguments earlier number →
              (earlier ∈ registry.boundGroups found ↔ earlier ∈ others)
  /-- No other group would fit into the tokens that remain. -/
  full : ∀ number ∈ registry.argumentGroups, number ∉ registry.boundGroups found →
    found.remaining.length < Layout.groupSize registry.arguments number

/-- The groups of another choice, in the order in which they are tried. -/
theorem toFinset_numbers_filter_ranked (h : registry.WellFormed) {others : Finset Nat}
    (hothers : others ⊆ registry.argumentGroups) :
    ((registry.ranked.filter fun group => group.number ∈ others).map
      ArgumentGroup.number).toFinset = others := by
  ext number
  rw [List.mem_toFinset, List.mem_map]
  constructor
  · rintro ⟨group, hgroup, rfl⟩
    simpa using (List.mem_filter.1 hgroup).2
  · intro hnumber
    have hranked := hothers hnumber
    rw [← toFinset_numbers_ranked h, List.mem_toFinset, List.mem_map] at hranked
    obtain ⟨group, hgroup, rfl⟩ := hranked
    exact ⟨group, List.mem_filter.2 ⟨hgroup, by simpa using hnumber⟩, rfl⟩

/-- A group that takes precedence over another one is tried before it. -/
theorem mem_front_of_precedes (h : registry.WellFormed) {front rest : List ArgumentGroup}
    {group earlier : ArgumentGroup} (hranked : registry.ranked = front ++ group :: rest)
    (hearlier : earlier ∈ registry.ranked)
    (hprecedes : Layout.Precedes registry.arguments earlier.number group.number) :
    earlier ∈ front := by
  have hordered : registry.ranked.Pairwise fun group other =>
      Layout.Precedes registry.arguments group.number other.number :=
    Layout.pairwise_precedes_ranked h.divides (Layout.placed_of_numbered h.numbered)
  rw [hranked, List.pairwise_append, List.pairwise_cons] at hordered
  rw [hranked, List.mem_append, List.mem_cons] at hearlier
  rcases hearlier with hearlier | rfl | hearlier
  · exact hearlier
  · exact absurd hprecedes (Layout.Precedes.irrefl _ _)
  · exact absurd hprecedes (hordered.2.1.1 earlier hearlier).asymm

theorem best_matchOf (h : registry.WellFormed)
    (henough : registry.mandatoryArguments.length ≤ (positionals pieces).length)
    {others : Finset Nat} (hothers : others ⊆ registry.argumentGroups)
    (hdemand : registry.mandatoryArguments.length + registry.demand others ≤
      (positionals pieces).length)
    (hne : others ≠ registry.boundGroups (registry.matchOf pieces)) :
    ∃ number ∈ registry.boundGroups (registry.matchOf pieces), number ∉ others ∧
      ∀ earlier ∈ registry.argumentGroups,
        Layout.Precedes registry.arguments earlier number →
          (earlier ∈ registry.boundGroups (registry.matchOf pieces) ↔ earlier ∈ others) := by
  have hnumbers := toFinset_numbers_filter_ranked h hothers
  rw [boundGroups_matchOf h henough] at hne ⊢
  set row := registry.ranked.filter fun group => group.number ∈ others with hrow
  have hsublist : row.Sublist registry.ranked := List.filter_sublist
  have hmem : ∀ group ∈ registry.ranked, (group ∈ row ↔ group.number ∈ others) := by
    intro group hgroup
    simp [hrow, hgroup]
  have hspare : (row.flatMap ArgumentGroup.members).length ≤
      (positionals pieces).length - registry.mandatoryCount := by
    rw [← demand_toFinset h hsublist, hnumbers, mandatoryCount_eq]
    omega
  have hchosen : row ≠ registry.chosen (positionals pieces).length := by
    intro heq
    rw [served, ← heq, hnumbers] at hne
    exact hne rfl
  have hserved : ∀ group ∈ registry.ranked,
      (group.number ∈ registry.served pieces ↔
        group ∈ registry.chosen (positionals pieces).length) :=
    fun group hgroup => number_mem_map_iff h (chosen_sublist _) hgroup
  have hnodup : registry.ranked.Nodup := (nodup_numbers_ranked h).of_map _
  obtain ⟨front, group, rest, hranked, hgroup, hnot, hfront⟩ :=
    chooseGroups_first hnodup hsublist hspare hchosen
  have hgroupRanked : group ∈ registry.ranked := by simp [hranked]
  refine ⟨group.number, ?_, (hmem group hgroupRanked).not.1 hnot, ?_⟩
  · rw [List.mem_toFinset]
    exact (hserved group hgroupRanked).2 hgroup
  · intro number hnumber hprecedes
    rw [← toFinset_numbers_ranked h, List.mem_toFinset, List.mem_map] at hnumber
    obtain ⟨earlier, hearlier, rfl⟩ := hnumber
    rw [List.mem_toFinset, hserved earlier hearlier, ← hmem earlier hearlier]
    exact hfront earlier (mem_front_of_precedes h hranked hearlier hprecedes)

/-- There are tokens for the mandatory arguments and for the bound groups. -/
theorem demand_boundGroups_le (h : registry.WellFormed)
    (henough : registry.mandatoryArguments.length ≤ (positionals pieces).length) :
    registry.mandatoryArguments.length +
        registry.demand (registry.boundGroups (registry.matchOf pieces)) ≤
      (positionals pieces).length := by
  rw [demand_boundGroups_matchOf h henough]
  exact length_slots_le h (mandatoryCount_eq ▸ henough)

theorem servesBest_matchOf (h : registry.WellFormed)
    (henough : registry.mandatoryArguments.length ≤ (positionals pieces).length) :
    registry.ServesBest pieces (registry.matchOf pieces) where
  affordable := demand_boundGroups_le h henough
  best others hothers hdemand hne := best_matchOf h henough hothers hdemand hne
  full number hnumber hnot := by
    by_contra hfits
    have hremaining : (registry.matchOf pieces).remaining.length =
        (positionals pieces).length - (registry.slots (positionals pieces).length).length :=
      List.length_drop
    rw [hremaining, ← demand_boundGroups_matchOf h henough] at hfits
    -- the group together with those that are bound would be a better choice
    have hsubset : insert number (registry.boundGroups (registry.matchOf pieces)) ⊆
        registry.argumentGroups :=
      Finset.insert_subset hnumber (Finset.filter_subset _ _)
    have hdemand : registry.mandatoryArguments.length +
        registry.demand (insert number (registry.boundGroups (registry.matchOf pieces))) ≤
          (positionals pieces).length := by
      have haffordable := demand_boundGroups_le h henough
      rw [demand, Finset.sum_insert hnot, ← demand]
      omega
    have hne : insert number (registry.boundGroups (registry.matchOf pieces)) ≠
        registry.boundGroups (registry.matchOf pieces) :=
      fun heq => hnot (heq ▸ Finset.mem_insert_self _ _)
    obtain ⟨other, hother, hmissing, -⟩ := best_matchOf h henough hsubset hdemand hne
    exact hmissing (Finset.mem_insert_of_mem hother)

/-- A match serves the best groups that can be afforded. -/
theorem servesBest_of_fit {definition : Text} (hread : Registry.read definition = .ok registry)
    {found : Match} (hfit : registry.fit tokens = .ok found) :
    ∃ pieces, registry.Reads tokens pieces ∧
      (∀ others, registry.Reads tokens others → others = pieces) ∧
      registry.ServesBest pieces found := by
  have h := wellFormed_of_read hread
  obtain ⟨pieces, hreads, hunique, henough, rfl⟩ := exists_matchOf_of_fit h hfit
  exact ⟨pieces, hreads, hunique, servesBest_matchOf h henough⟩

/-- Here the second group is served, which is larger than the first one and in front of the same
    argument, in spite of the mandatory switch between the two. -/
theorem servesBest_of_larger_group : ∃ registry,
    Registry.read ['[', 'a', ']', ' ', '-', '-', 'x', ' ', '[', 'b', ' ', 'c', ']', ' ', 'd', ' ',
        '[', 'e', ']'] = .ok registry ∧
      registry.fit [['-', '-', 'x'], ['1'], ['2'], ['3']] =
        .ok ⟨[(['x'], .flag true), (['b'], .positional ['1']), (['c'], .positional ['2']),
          (['d'], .positional ['3'])], []⟩ ∧
      ∃ pieces, registry.Reads [['-', '-', 'x'], ['1'], ['2'], ['3']] pieces ∧
        (∀ others, registry.Reads [['-', '-', 'x'], ['1'], ['2'], ['3']] others →
          others = pieces) ∧
        registry.ServesBest pieces
          ⟨[(['x'], .flag true), (['b'], .positional ['1']), (['c'], .positional ['2']),
            (['d'], .positional ['3'])], []⟩ := by
  have h : Registry.read ['[', 'a', ']', ' ', '-', '-', 'x', ' ', '[', 'b', ' ', 'c', ']', ' ',
      'd', ' ', '[', 'e', ']'] =
    .ok ⟨[⟨⟨.argument, ['a']⟩, [], false, some 1⟩, ⟨⟨.long, ['x']⟩, [], false, none⟩,
      ⟨⟨.argument, ['b']⟩, [], false, some 2⟩, ⟨⟨.argument, ['c']⟩, [], false, some 2⟩,
      ⟨⟨.argument, ['d']⟩, [], false, none⟩, ⟨⟨.argument, ['e']⟩, [], false, some 3⟩],
      none⟩ := rfl
  exact ⟨_, h, rfl, servesBest_of_fit h rfl⟩

end Registry

end CommandLine

import CommandLine.Proofs.Matching.Priority

/-!
# Groups without numbers

The number of a group tells the arguments of this group from those of other groups, and means
nothing else. Two rows of arguments with the same names, of which the same may be left out and the
same neighbours share a group, have groups with the same members, which are served in the same
order. So the same arguments receive tokens, whatever the numbers are.

Results:
* `Regrouped.memberRows_eq`, `Regrouped.map_members_ranked`: the groups have the same members.
* `Registry.receives_iff`: the arguments that receive a token, by the members of the groups.
* `Registry.slots_of_regrouped`: the same arguments receive tokens.
-/

namespace CommandLine

/-- The rows of arguments differ in the numbers of the groups only: an argument goes on in the group
    of the next one just if its counterpart does. -/
inductive Regrouped : List Declaration → List Declaration → Prop
  | nil : Regrouped [] []
  | cons {argument other : Declaration} {arguments others : List Declaration}
      (hname : other.name = argument.name) (hoptional : other.isOptional = argument.isOptional)
      (hjoins : argument.group = arguments.head?.bind Declaration.group ↔
        other.group = others.head?.bind Declaration.group)
      (hrest : Regrouped arguments others) : Regrouped (argument :: arguments) (other :: others)

namespace Layout

/-! ## The members of the groups -/

/-- The members of the groups in the rows of a layout. -/
def memberRows (layout : Layout) : List (List (List Text)) :=
  layout.rows.map (List.map ArgumentGroup.members)

/-- The group in front is the one of the first argument. -/
theorem head?_number_leading (arguments : List Declaration) :
    (ofArguments arguments).leading.head?.map ArgumentGroup.number =
      arguments.head?.bind Declaration.group := by
  cases arguments with
  | nil => rfl
  | cons argument arguments =>
    rw [ofArguments, List.foldr_cons, push]
    cases hgroup : argument.group with
    | none => simp [hgroup]
    | some number =>
      obtain ⟨members, others, hpush, -⟩ := exists_pushMember argument.name
        (arguments.foldr push {}).leading number
      simp [hpush, hgroup]

/-- Whether an argument joins the first group depends on the number of this group only. -/
theorem map_members_pushMember (number : Nat) (name : Text) (row : List ArgumentGroup) :
    (pushMember number name row).map ArgumentGroup.members =
      if some number = row.head?.map ArgumentGroup.number then
        (row.map ArgumentGroup.members).modifyHead (name :: ·)
      else [name] :: row.map ArgumentGroup.members := by
  cases row with
  | nil => simp [pushMember]
  | cons group row =>
    by_cases hnumber : group.number = number
    · simp [pushMember, hnumber]
    · simp [pushMember, hnumber, Ne.symm hnumber]

/-- The rows behind one more argument. -/
theorem memberRows_cons_of_none {argument : Declaration} (hgroup : argument.group = none)
    (arguments : List Declaration) :
    (ofArguments (argument :: arguments)).memberRows =
      [] :: (ofArguments arguments).memberRows := by
  rw [ofArguments, List.foldr_cons, push, hgroup]
  rfl

theorem memberRows_cons_of_some {argument : Declaration} {number : Nat}
    (hgroup : argument.group = some number) (arguments : List Declaration) :
    (ofArguments (argument :: arguments)).memberRows =
      (ofArguments arguments).memberRows.modifyHead fun row =>
        if some number = arguments.head?.bind Declaration.group then
          row.modifyHead (argument.name :: ·)
        else [argument.name] :: row := by
  have hrow := map_members_pushMember number argument.name (ofArguments arguments).leading
  rw [head?_number_leading] at hrow
  rw [ofArguments, List.foldr_cons, push, hgroup]
  exact congrArg (· :: _) hrow

/-- Sorting by size looks at the members only. -/
theorem map_members_bySize (groups : List ArgumentGroup) :
    (bySize groups).map ArgumentGroup.members =
      (groups.map ArgumentGroup.members).insertionSort fun a b => b.length ≤ a.length := by
  rw [bySize_eq_insertionSort]
  exact List.map_insertionSort _ _ ArgumentGroup.members groups fun _ _ _ _ => Iff.rfl

theorem map_members_ranked (layout : Layout) :
    layout.ranked.map ArgumentGroup.members =
      layout.memberRows.flatMap fun row => row.insertionSort fun a b => b.length ≤ a.length := by
  rw [ranked_eq_flatMap_rows, List.map_flatMap, memberRows, List.flatMap_map]
  simp only [map_members_bySize]

end Layout

/-- Serving groups looks at the members only. -/
theorem map_members_chooseGroups {groups others : List ArgumentGroup}
    (h : others.map ArgumentGroup.members = groups.map ArgumentGroup.members) (spare : Nat) :
    (chooseGroups spare others).map ArgumentGroup.members =
      (chooseGroups spare groups).map ArgumentGroup.members := by
  induction groups generalizing others spare with
  | nil =>
    obtain rfl := List.map_eq_nil_iff.1 h
    rfl
  | cons group groups ih =>
    obtain ⟨other, others, rfl, hmembers, hrest⟩ := List.map_eq_cons_iff.1 h
    rw [chooseGroups, chooseGroups, hmembers]
    split
    · rw [List.map_cons, List.map_cons, hmembers, ih hrest]
    · exact ih hrest spare

namespace Regrouped

variable {arguments others : List Declaration}

/-- The groups have the same members. -/
theorem memberRows_eq (h : Regrouped arguments others) :
    (Layout.ofArguments others).memberRows = (Layout.ofArguments arguments).memberRows := by
  induction h with
  | nil => rfl
  | @cons argument other arguments others hname hoptional hjoins _ ih =>
    have hsome : other.group.isSome = argument.group.isSome := hoptional
    cases hgroup : argument.group with
    | none =>
      have hgroup' : other.group = none := by simpa [hgroup] using hsome
      rw [Layout.memberRows_cons_of_none hgroup, Layout.memberRows_cons_of_none hgroup', ih]
    | some number =>
      obtain ⟨number', hgroup'⟩ : ∃ number', other.group = some number' :=
        Option.isSome_iff_exists.1 (by simp [hsome, hgroup])
      rw [hgroup, hgroup'] at hjoins
      rw [Layout.memberRows_cons_of_some hgroup, Layout.memberRows_cons_of_some hgroup', ih, hname]
      simp only [hjoins]

/-- The groups are served in the same order. -/
theorem map_members_ranked (h : Regrouped arguments others) :
    (Layout.ofArguments others).ranked.map ArgumentGroup.members =
      (Layout.ofArguments arguments).ranked.map ArgumentGroup.members := by
  rw [Layout.map_members_ranked, Layout.map_members_ranked, h.memberRows_eq]

/-- Picking arguments by their names, and by whether they may be left out, picks the same ones. -/
theorem map_name_filter (h : Regrouped arguments others) (passes : Text → Bool → Bool) :
    (others.filter fun other => passes other.name other.isOptional).map Declaration.name =
      (arguments.filter fun argument => passes argument.name argument.isOptional).map
        Declaration.name := by
  induction h with
  | nil => rfl
  | cons hname hoptional _ _ ih =>
    rw [List.filter_cons, List.filter_cons, hname, hoptional]
    split
    · rw [List.map_cons, List.map_cons, hname, ih]
    · exact ih

theorem map_name_eq (h : Regrouped arguments others) :
    others.map Declaration.name = arguments.map Declaration.name := by
  simpa using h.map_name_filter fun _ _ => true

/-- Arguments that share their groups in the same way are grouped in the same way. -/
theorem of_groups (hnames : others.map Declaration.name = arguments.map Declaration.name)
    (hoptional : others.map Declaration.isOptional = arguments.map Declaration.isOptional)
    (hgroups : ∀ argument ∈ arguments, ∀ beside ∈ arguments, ∀ other ∈ others,
      ∀ beside' ∈ others, other.name = argument.name → beside'.name = beside.name →
        (argument.group = beside.group ↔ other.group = beside'.group)) :
    Regrouped arguments others := by
  induction arguments generalizing others with
  | nil =>
    obtain rfl := List.map_eq_nil_iff.1 hnames
    exact .nil
  | cons argument arguments ih =>
    obtain ⟨other, others, rfl, hname, hnames⟩ := List.map_eq_cons_iff.1 hnames
    obtain ⟨hfirst, hoptional⟩ := List.cons.inj hoptional
    refine .cons hname hfirst ?_ (ih hnames hoptional fun a ha b hb a' ha' b' hb' =>
      hgroups a (List.mem_cons_of_mem _ ha) b (List.mem_cons_of_mem _ hb)
        a' (List.mem_cons_of_mem _ ha') b' (List.mem_cons_of_mem _ hb'))
    cases arguments with
    | nil =>
      obtain rfl := List.map_eq_nil_iff.1 hnames
      have hnone : other.group.isSome = argument.group.isSome := hfirst
      rw [List.head?_nil, Option.bind_none, ← Option.not_isSome_iff_eq_none,
        ← Option.not_isSome_iff_eq_none, hnone]
    | cons beside arguments =>
      obtain ⟨beside', others, rfl, hbeside, -⟩ := List.map_eq_cons_iff.1 hnames
      exact hgroups argument (by simp) beside (by simp) other (by simp) beside' (by simp) hname
        hbeside

end Regrouped

namespace Registry

variable {registry other : Registry}

/-! ## Who receives a token -/

/-- The arguments that receive a token are the mandatory ones and the members of the groups that are
    served. -/
theorem receives_iff (h : registry.WellFormed) (supply : Nat) {argument : Declaration}
    (hargument : argument ∈ registry.arguments) :
    receives ((registry.chosen supply).map ArgumentGroup.number) argument = true ↔
      argument.isOptional = false ∨
        argument.name ∈ ((registry.chosen supply).map ArgumentGroup.members).flatten := by
  have hmembers : ∀ group ∈ registry.chosen supply,
      group.members = Layout.membersOf registry.arguments group.number :=
    fun group hgroup => h.divides.members group (chosen_subset supply group hgroup)
  have hsame : ∀ beside ∈ registry.arguments, beside.name = argument.name → beside = argument :=
    fun beside hbeside hname =>
      List.inj_on_of_nodup_map (nodup_map_name_arguments h) hbeside hargument hname
  rw [receives, ← List.flatMap_def, List.mem_flatMap]
  cases hgroup : argument.group with
  | none => simp [Declaration.isOptional, hgroup]
  | some number =>
    simp only [Declaration.isOptional, hgroup, Option.isSome_some, Bool.true_eq_false, false_or,
      List.contains_iff_mem, List.mem_map]
    refine exists_congr fun group => and_congr_right fun hchosen => ?_
    rw [hmembers group hchosen, Layout.membersOf, List.mem_map]
    constructor
    · rintro rfl
      exact ⟨argument, by simp [hargument, hgroup], rfl⟩
    · -- names are distinct, so a member with this name is the argument itself
      rintro ⟨beside, hbeside, hname⟩
      obtain ⟨hmem, hnumber⟩ := List.mem_filter.1 hbeside
      rw [hsame beside hmem hname, hgroup] at hnumber
      exact (by simpa using hnumber : number = group.number).symm

/-- The names of the arguments that receive a token, by their names. -/
theorem slots_eq_filter (h : registry.WellFormed) (supply : Nat) :
    registry.slots supply = (registry.arguments.filter fun argument =>
      !argument.isOptional || decide (argument.name ∈
        ((registry.chosen supply).map ArgumentGroup.members).flatten)).map Declaration.name := by
  rw [slots_eq]
  refine congrArg (List.map Declaration.name) (List.filter_congr fun argument hargument => ?_)
  rw [Bool.eq_iff_iff, receives_iff h supply hargument]
  simp

theorem map_name_mandatoryArguments (h : Regrouped registry.arguments other.arguments) :
    other.mandatoryArguments.map Declaration.name =
      registry.mandatoryArguments.map Declaration.name :=
  h.map_name_filter fun _ isOptional => !isOptional

theorem length_mandatoryArguments (h : Regrouped registry.arguments other.arguments) :
    other.mandatoryArguments.length = registry.mandatoryArguments.length := by
  simpa using congrArg List.length (map_name_mandatoryArguments h)

/-- The same arguments receive tokens. -/
theorem slots_of_regrouped (h : registry.WellFormed) (hother : other.WellFormed)
    (hregrouped : Regrouped registry.arguments other.arguments) (supply : Nat) :
    other.slots supply = registry.slots supply := by
  have hchosen : (other.chosen supply).map ArgumentGroup.members =
      (registry.chosen supply).map ArgumentGroup.members := by
    rw [chosen, chosen, mandatoryCount_eq, mandatoryCount_eq,
      length_mandatoryArguments hregrouped]
    exact map_members_chooseGroups hregrouped.map_members_ranked _
  rw [slots_eq_filter h, slots_eq_filter hother, hchosen]
  exact hregrouped.map_name_filter fun name isOptional =>
    !isOptional || decide (name ∈ ((registry.chosen supply).map ArgumentGroup.members).flatten)

end Registry

end CommandLine

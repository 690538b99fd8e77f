import Mathlib.Data.List.Sort
import CommandLine.Matching.Groups
import CommandLine.Proofs.Registry.WellFormed

/-!
# The groups of the arguments

The layout of a registry holds every optional group of arguments once, under its own number and with
all of its members, and the order in which the groups are served rearranges them. A group is served
as long as it fits, so the groups that are served never need more tokens than are left for them.

Results:
* `Layout.divides_of_numbered`: the layout divides the arguments into their groups.
* `Layout.ranked_perm`: the order of service rearranges the groups.
* `chooseGroups_sublist`, `length_members_chooseGroups_le`: what is served.
-/

namespace CommandLine

/-- How many arguments a group has. -/
def ArgumentGroup.size (group : ArgumentGroup) : Nat := group.members.length

namespace Layout

/-- All groups, in the order of declaration. -/
def groups (layout : Layout) : List ArgumentGroup := layout.leading ++ layout.following.flatten

/-! ## The order of service -/

theorem insertBySize_eq_orderedInsert (group : ArgumentGroup) (groups : List ArgumentGroup) :
    insertBySize group groups = groups.orderedInsert (fun a b => b.size ≤ a.size) group := by
  induction groups with
  | nil => rfl
  | cons other others ih => rw [insertBySize, List.orderedInsert_cons, ih]; rfl

/-- The groups are sorted by decreasing size, without disturbing those of one size. -/
theorem bySize_eq_insertionSort (groups : List ArgumentGroup) :
    bySize groups = groups.insertionSort fun a b => b.size ≤ a.size := by
  induction groups with
  | nil => rfl
  | cons group groups ih =>
    rw [List.insertionSort_cons, ← ih, ← insertBySize_eq_orderedInsert]
    rfl

theorem bySize_perm (groups : List ArgumentGroup) : (bySize groups).Perm groups := by
  rw [bySize_eq_insertionSort]
  exact List.perm_insertionSort _ groups

/-- The order of service rearranges the groups. -/
theorem ranked_perm (layout : Layout) : layout.ranked.Perm layout.groups := by
  refine (bySize_perm layout.leading).append ?_
  induction layout.following with
  | nil => exact .refl _
  | cons bucket following ih => exact (bySize_perm bucket).append ih

/-! ## The division into groups -/

/-- The names of the arguments in the group with this number. -/
def membersOf (arguments : List Declaration) (number : Nat) : List Text :=
  (arguments.filter fun argument => argument.group = some number).map Declaration.name

/-- The layout divides the arguments into their groups. -/
structure Divides (layout : Layout) (arguments : List Declaration) : Prop where
  ascending : (layout.groups.map ArgumentGroup.number).Pairwise (· < ·)
  members : ∀ group ∈ layout.groups, group.members = membersOf arguments group.number
  nonempty : ∀ group ∈ layout.groups, group.members ≠ []
  complete : ∀ argument ∈ arguments, ∀ number, argument.group = some number →
    number ∈ layout.groups.map ArgumentGroup.number

/-- The groups of the layout were opened after the first `opened` ones, except for one that goes on
    from an option in the group `previous`. -/
structure Above (previous : Option Nat) (opened : Nat) (layout : Layout) : Prop where
  leading : ∀ group ∈ layout.leading,
    opened < group.number ∨ previous = some opened ∧ group.number = opened
  following : ∀ group ∈ layout.following.flatten, opened < group.number

variable {layout : Layout} {arguments : List Declaration} {argument : Declaration} {number : Nat}

theorem membersOf_cons_of_eq (h : argument.group = some number) :
    membersOf (argument :: arguments) number = argument.name :: membersOf arguments number := by
  simp [membersOf, h]

theorem membersOf_cons_of_ne (h : argument.group ≠ some number) :
    membersOf (argument :: arguments) number = membersOf arguments number := by
  simp [membersOf, h]

theorem Divides.membersOf_eq_nil (h : layout.Divides arguments)
    (hnumber : ∀ group ∈ layout.groups, group.number ≠ number) :
    membersOf arguments number = [] := by
  rw [membersOf, List.map_eq_nil_iff, List.filter_eq_nil_iff]
  intro argument hargument hgroup
  obtain ⟨group, hmem, heq⟩ :=
    List.mem_map.1 (h.complete argument hargument number (by simpa using hgroup))
  exact hnumber group hmem heq

/-- A mandatory argument starts a new row of groups. -/
theorem Divides.push_mandatory (h : layout.Divides arguments) (hgroup : argument.group = none) :
    (push argument layout).Divides (argument :: arguments) := by
  have hgroups : (push argument layout).groups = layout.groups := by simp [push, hgroup, groups]
  refine ⟨hgroups ▸ h.ascending, fun group hmem => ?_, hgroups ▸ h.nonempty, ?_⟩
  · rw [hgroups] at hmem
    rw [membersOf_cons_of_ne (by simp [hgroup])]
    exact h.members group hmem
  · intro other hother number hnumber
    rw [hgroups]
    rcases List.mem_cons.1 hother with rfl | hother
    · rw [hgroup] at hnumber
      cases hnumber
    · exact h.complete other hother number hnumber

/-- An argument joins the first group if that is its own, and it stands in front of all groups
    otherwise. -/
theorem exists_pushMember (name : Text) (row : List ArgumentGroup) (number : Nat) :
    ∃ members others, pushMember number name row = ⟨number, name :: members⟩ :: others ∧
      (row = ⟨number, members⟩ :: others ∨
        row = others ∧ members = [] ∧ ∀ group ∈ row.head?, group.number ≠ number) := by
  cases row with
  | nil => exact ⟨[], [], rfl, .inr (by simp)⟩
  | cons first others =>
    by_cases hfirst : first.number = number
    · refine ⟨first.members, others, by rw [pushMember, if_pos hfirst], .inl ?_⟩
      rw [← hfirst]
    · exact ⟨[], first :: others, by rw [pushMember, if_neg hfirst], .inr (by simpa using hfirst)⟩

theorem Above.le_number (h : layout.Above (some number) number) :
    ∀ group ∈ layout.leading, number ≤ group.number := by
  intro group hgroup
  rcases h.leading group hgroup with hlt | ⟨-, heq⟩
  · exact hlt.le
  · exact heq.ge

theorem lt_of_head?_ne {row : List ArgumentGroup}
    (hascending : (row.map ArgumentGroup.number).Pairwise (· < ·))
    (hleast : ∀ group ∈ row, number ≤ group.number)
    (hfirst : ∀ group ∈ row.head?, group.number ≠ number) :
    ∀ group ∈ row, number < group.number := by
  cases row with
  | nil => simp
  | cons first others =>
    have hlt : number < first.number :=
      lt_of_le_of_ne (hleast first List.mem_cons_self) (hfirst first rfl).symm
    rw [List.map_cons, List.pairwise_cons] at hascending
    intro group hgroup
    rcases List.mem_cons.1 hgroup with rfl | hgroup
    · exact hlt
    · exact hlt.trans (hascending.1 _ (List.mem_map_of_mem hgroup))

/-- An argument of the lowest group adds to that group and leaves the others as they are. -/
theorem Divides.exists_groups_push (h : layout.Divides arguments)
    (habove : layout.Above (some number) number) (hgroup : argument.group = some number) :
    ∃ others, (push argument layout).groups =
        ⟨number, argument.name :: membersOf arguments number⟩ :: others ∧
      (∀ group ∈ others, number < group.number) ∧
      (layout.groups = ⟨number, membersOf arguments number⟩ :: others ∨
        layout.groups = others) := by
  obtain ⟨members, rest, hpush, hrow⟩ := exists_pushMember argument.name layout.leading number
  have hgroups : (push argument layout).groups =
      ⟨number, argument.name :: members⟩ :: (rest ++ layout.following.flatten) := by
    simp [push, hgroup, groups, hpush]
  rcases hrow with hrow | ⟨rfl, rfl, hfirst⟩
  · have hold : layout.groups = ⟨number, members⟩ :: (rest ++ layout.following.flatten) := by
      rw [groups, hrow, List.cons_append]
    have hmembers : members = membersOf arguments number :=
      h.members ⟨number, members⟩ (by simp [hold])
    have hascending := h.ascending
    rw [hold, List.map_cons, List.pairwise_cons] at hascending
    refine ⟨_, hmembers ▸ hgroups, fun group hmem => ?_, .inl (hmembers ▸ hold)⟩
    exact hascending.1 _ (List.mem_map_of_mem hmem)
  · have hold : ∀ group ∈ layout.groups, number < group.number := by
      have hascending := h.ascending
      rw [groups, List.map_append, List.pairwise_append] at hascending
      intro group hmem
      rcases List.mem_append.1 hmem with hmem | hmem
      · exact lt_of_head?_ne hascending.1 habove.le_number hfirst group hmem
      · exact habove.following group hmem
    have hmembers : membersOf arguments number = [] :=
      h.membersOf_eq_nil fun group hmem => (hold group hmem).ne'
    exact ⟨layout.groups, hmembers ▸ hgroups, hold, .inr rfl⟩

/-- An argument of the lowest group joins it. -/
theorem Divides.push_optional (h : layout.Divides arguments)
    (habove : layout.Above (some number) number) (hgroup : argument.group = some number) :
    (push argument layout).Divides (argument :: arguments) ∧
      (push argument layout).Above (some number) number := by
  obtain ⟨others, hgroups, hothers, hold⟩ := h.exists_groups_push habove hgroup
  have hsublist : others.Sublist layout.groups := by
    rcases hold with hold | hold
    · exact hold ▸ List.sublist_cons_self _ _
    · exact hold ▸ List.Sublist.refl _
  refine ⟨⟨?_, fun group hmem => ?_, fun group hmem => ?_, ?_⟩, fun group hmem => ?_, ?_⟩
  · rw [hgroups, List.map_cons, List.pairwise_cons]
    refine ⟨fun other hmem => ?_, h.ascending.sublist (hsublist.map _)⟩
    obtain ⟨group, hgroup, rfl⟩ := List.mem_map.1 hmem
    exact hothers group hgroup
  · rw [hgroups] at hmem
    rcases List.mem_cons.1 hmem with rfl | hmem
    · exact (membersOf_cons_of_eq hgroup).symm
    · have hne : argument.group ≠ some group.number := by
        rw [hgroup]
        exact fun heq => (hothers group hmem).ne (Option.some.inj heq)
      rw [membersOf_cons_of_ne hne]
      exact h.members group (hsublist.mem hmem)
  · rw [hgroups] at hmem
    rcases List.mem_cons.1 hmem with rfl | hmem
    · exact List.cons_ne_nil _ _
    · exact h.nonempty group (hsublist.mem hmem)
  · intro other hother found hfound
    rw [hgroups, List.map_cons]
    rcases List.mem_cons.1 hother with rfl | hother
    · obtain rfl : number = found := Option.some.inj (hgroup.symm.trans hfound)
      exact List.mem_cons_self
    · have hmem := h.complete other hother found hfound
      rcases hold with hold | hold
      · rwa [hold] at hmem
      · rw [hold] at hmem
        exact List.mem_cons_of_mem _ hmem
  · have hmem' : group ∈ (push argument layout).groups := List.mem_append_left _ hmem
    rw [hgroups] at hmem'
    rcases List.mem_cons.1 hmem' with rfl | hmem'
    · exact .inr ⟨rfl, rfl⟩
    · exact .inl (hothers group hmem')
  · simpa [push, hgroup] using habove.following

theorem Above.push_mandatory {previous : Option Nat} {opened : Nat}
    (h : layout.Above none opened) (hgroup : argument.group = none) :
    (push argument layout).Above previous opened := by
  simp only [push, hgroup]
  refine ⟨by simp, fun group hmem => ?_⟩
  rw [List.flatten_cons] at hmem
  rcases List.mem_append.1 hmem with hmem | hmem
  · exact (h.leading group hmem).resolve_right (by simp)
  · exact h.following group hmem

theorem Above.of_none {previous : Option Nat} {opened : Nat} (h : layout.Above none opened) :
    layout.Above previous opened :=
  ⟨fun group hmem => .inl ((h.leading group hmem).resolve_right (by simp)), h.following⟩

theorem Above.of_succ {previous : Option Nat} {opened : Nat}
    (h : layout.Above (some (opened + 1)) (opened + 1)) : layout.Above previous opened :=
  ⟨fun group hmem => .inl (h.le_number group hmem),
    fun group hmem => Nat.lt_of_succ_lt (h.following group hmem)⟩

/-- The layout divides the arguments of numbered options into their groups. -/
theorem divides_of_numbered {previous : Option Nat} {opened : Nat} {options : List Declaration}
    (h : Registry.Numbered previous opened options) :
    (ofArguments (options.filter Declaration.isArgument)).Divides
        (options.filter Declaration.isArgument) ∧
      (ofArguments (options.filter Declaration.isArgument)).Above previous opened := by
  induction h with
  | nil => exact ⟨⟨by simp [ofArguments, groups], by simp [ofArguments, groups],
      by simp [ofArguments, groups], by simp⟩, ⟨by simp [ofArguments], by simp [ofArguments]⟩⟩
  | @mandatory previous opened option options hgroup _ ih =>
    cases hargument : option.isArgument with
    | true =>
      rw [List.filter_cons_of_pos hargument]
      exact ⟨ih.1.push_mandatory hgroup, ih.2.push_mandatory hgroup⟩
    | false =>
      rw [List.filter_cons_of_neg (by simp [hargument])]
      exact ⟨ih.1, ih.2.of_none⟩
  | @opens previous opened option options hgroup _ ih =>
    cases hargument : option.isArgument with
    | true =>
      rw [List.filter_cons_of_pos hargument]
      obtain ⟨hdivides, habove⟩ := ih.1.push_optional ih.2 hgroup
      exact ⟨hdivides, habove.of_succ⟩
    | false =>
      rw [List.filter_cons_of_neg (by simp [hargument])]
      exact ⟨ih.1, ih.2.of_succ⟩
  | @continues opened option options hgroup _ ih =>
    cases hargument : option.isArgument with
    | true =>
      rw [List.filter_cons_of_pos hargument]
      exact ih.1.push_optional ih.2 hgroup
    | false =>
      rw [List.filter_cons_of_neg (by simp [hargument])]
      exact ih

end Layout

/-! ## The groups that are served -/

theorem chooseGroups_sublist (spare : Nat) (groups : List ArgumentGroup) :
    (chooseGroups spare groups).Sublist groups := by
  fun_induction chooseGroups spare groups with
  | case1 => exact .slnil
  | case2 spare group groups _ ih => exact ih.cons_cons group
  | case3 spare group groups _ ih => exact ih.cons group

/-- The groups that are served need no more tokens than are left for them. -/
theorem length_members_chooseGroups_le (spare : Nat) (groups : List ArgumentGroup) :
    ((chooseGroups spare groups).flatMap ArgumentGroup.members).length ≤ spare := by
  fun_induction chooseGroups spare groups with
  | case1 => simp
  | case2 spare group groups hfits ih =>
    rw [List.flatMap_cons, List.length_append]
    omega
  | case3 spare group groups _ ih => exact ih

/-- Without tokens that are left no group is served. -/
theorem chooseGroups_zero {groups : List ArgumentGroup}
    (h : ∀ group ∈ groups, group.members ≠ []) : chooseGroups 0 groups = [] := by
  induction groups with
  | nil => rfl
  | cons group groups ih =>
    have hpos : 0 < group.members.length := List.length_pos_iff.2 (h group List.mem_cons_self)
    rw [chooseGroups, if_neg (by omega)]
    exact ih fun other hother => h other (List.mem_cons_of_mem _ hother)

end CommandLine

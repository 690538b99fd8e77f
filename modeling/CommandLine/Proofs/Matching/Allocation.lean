import CommandLine.Matching.Allocation
import CommandLine.Proofs.Matching.Groups

/-!
# Who receives a token

The mandatory arguments come first: as long as there are too few tokens for them, no optional group
is served, and the first mandatory argument without a token is the one that is missing. From then on
there are tokens for all arguments that are to receive one.

Results:
* `handOut_of_le`, `handOut_of_lt`: one token per name, or the first name without one.
* `Registry.length_slots`: how many tokens are handed out.
* `Registry.allocate_of_le`, `Registry.allocate_of_lt`: when there are enough tokens.
-/

namespace CommandLine

/-! ## Handing out -/

/-- With tokens for all names, each of them receives the one in its place. -/
theorem handOut_of_le {names tokens : List Text} (h : names.length ≤ tokens.length) :
    handOut names tokens = .ok ⟨names.zip tokens, tokens.drop names.length⟩ := by
  fun_induction handOut names tokens with
  | case1 tokens => rfl
  | case2 name names => simp at h
  | case3 name names token tokens ih =>
    rw [ih (by simpa using h)]
    rfl

/-- With too few tokens, the first name without one is missing. -/
theorem handOut_of_lt {names tokens : List Text} (h : tokens.length < names.length) :
    handOut names tokens = .error (.argumentMissing names[tokens.length]) := by
  fun_induction handOut names tokens with
  | case1 tokens => simp at h
  | case2 name names => rfl
  | case3 name names token tokens ih =>
    rw [ih (by simpa using h)]
    rfl

theorem lookup_zip_of_getElem? {names tokens : List Text} (h : names.Nodup) {place : Nat}
    {name : Text} (hname : names[place]? = some name) :
    (names.zip tokens).lookup name = tokens[place]? := by
  induction names generalizing place tokens with
  | nil => simp at hname
  | cons first names ih =>
    rw [List.nodup_cons] at h
    cases tokens with
    | nil => simp
    | cons token tokens =>
      cases place with
      | zero =>
        obtain rfl : first = name := by simpa using hname
        simp
      | succ place =>
        have hmem : names[place]? = some name := by simpa using hname
        have hne : name ≠ first := by
          rintro rfl
          exact h.1 (List.mem_of_getElem? hmem)
        rw [List.zip_cons_cons, List.lookup_cons, beq_eq_false_iff_ne.2 hne,
          List.getElem?_cons_succ]
        exact ih h.2 hmem

theorem exists_lookup_zip {names tokens : List Text} (hnames : names.Nodup)
    (hle : names.length ≤ tokens.length) {name : Text} (h : name ∈ names) :
    ∃ token ∈ tokens, (names.zip tokens).lookup name = some token := by
  obtain ⟨place, hplace, hname⟩ := List.mem_iff_getElem.1 h
  have hlt : place < tokens.length := by omega
  refine ⟨tokens[place], List.getElem_mem hlt, ?_⟩
  rw [lookup_zip_of_getElem? hnames (List.getElem?_eq_some_iff.2 ⟨hplace, hname⟩),
    List.getElem?_eq_getElem hlt]

theorem lookup_zip_of_notMem {names tokens : List Text} {name : Text} (h : name ∉ names) :
    (names.zip tokens).lookup name = none := by
  rw [List.lookup_eq_none_iff]
  rintro ⟨other, token⟩ hmem
  have hother : other ∈ names := (List.of_mem_zip hmem).1
  have hne : name ≠ other := by
    rintro rfl
    exact h hother
  exact bne_iff_ne.2 hne

namespace Registry

variable {registry : Registry}

/-! ## Slots -/

/-- The mandatory arguments, in the order of declaration. -/
def mandatoryArguments (registry : Registry) : List Declaration :=
  registry.arguments.filter fun argument => !argument.isOptional

theorem mandatoryCount_eq : registry.mandatoryCount = registry.mandatoryArguments.length :=
  List.countP_eq_length_filter

/-- Whether an argument receives a token when the groups with these numbers are served. -/
def receives (served : List Nat) (argument : Declaration) : Bool :=
  match argument.group with
  | none => true
  | some number => served.contains number

theorem slots_eq (supply : Nat) :
    registry.slots supply = (registry.arguments.filter
      (receives ((registry.chosen supply).map ArgumentGroup.number))).map Declaration.name := rfl

theorem receives_nil : receives [] = fun argument => !argument.isOptional := by
  funext argument
  cases hgroup : argument.group <;> simp [receives, Declaration.isOptional, hgroup]

theorem countP_receives_cons {served : List Nat} {number : Nat} (h : number ∉ served)
    (arguments : List Declaration) :
    arguments.countP (receives (number :: served)) =
      (Layout.membersOf arguments number).length + arguments.countP (receives served) := by
  induction arguments with
  | nil => rfl
  | cons argument arguments ih =>
    cases hgroup : argument.group with
    | none =>
      have hall : ∀ numbers, receives numbers argument = true := by simp [receives, hgroup]
      rw [List.countP_cons_of_pos (hall _), List.countP_cons_of_pos (hall _),
        Layout.membersOf_cons_of_ne (by simp [hgroup]), ih, Nat.add_assoc]
    | some found =>
      by_cases hfound : found = number
      · subst hfound
        rw [List.countP_cons_of_pos (by simp [receives, hgroup]),
          List.countP_cons_of_neg (by simp [receives, hgroup, h]),
          Layout.membersOf_cons_of_eq hgroup, ih, List.length_cons]
        omega
      · have hsame : receives (number :: served) argument = receives served argument := by
          simp [receives, hgroup, hfound]
        rw [Layout.membersOf_cons_of_ne (by simp [hgroup, hfound]), List.countP_cons,
          List.countP_cons, hsame, ih, Nat.add_assoc]

theorem countP_receives {groups : List ArgumentGroup} (arguments : List Declaration)
    (h : (groups.map ArgumentGroup.number).Nodup)
    (hmembers : ∀ group ∈ groups, group.members = Layout.membersOf arguments group.number) :
    arguments.countP (receives (groups.map ArgumentGroup.number)) =
      arguments.countP (fun argument => !argument.isOptional) +
        (groups.flatMap ArgumentGroup.members).length := by
  induction groups with
  | nil => rw [List.map_nil, receives_nil]; rfl
  | cons group groups ih =>
    rw [List.map_cons, List.nodup_cons] at h
    rw [List.map_cons, countP_receives_cons h.1,
      ih h.2 fun other hother => hmembers other (List.mem_cons_of_mem _ hother),
      List.flatMap_cons, List.length_append, hmembers group List.mem_cons_self]
    omega

/-- The layout of a registry divides its arguments into their groups. -/
theorem WellFormed.divides (h : registry.WellFormed) :
    (Layout.ofArguments registry.arguments).Divides registry.arguments :=
  (Layout.divides_of_numbered h.numbered).1

theorem chosen_subset (supply : Nat) :
    ∀ group ∈ registry.chosen supply, group ∈ (Layout.ofArguments registry.arguments).groups :=
  fun _ hgroup => (Layout.ranked_perm _).mem_iff.1 ((chooseGroups_sublist _ _).mem hgroup)

theorem nodup_numbers_chosen (h : registry.WellFormed) (supply : Nat) :
    ((registry.chosen supply).map ArgumentGroup.number).Nodup := by
  have hnodup : ((Layout.ofArguments registry.arguments).ranked.map ArgumentGroup.number).Nodup :=
    ((Layout.ranked_perm _).map _).nodup_iff.2 (h.divides.ascending.imp Nat.ne_of_lt)
  exact ((chooseGroups_sublist _ _).map _).nodup hnodup

/-- One token is handed out for each mandatory argument and for each argument of a group that is
    served. -/
theorem length_slots (h : registry.WellFormed) (supply : Nat) :
    (registry.slots supply).length =
      registry.mandatoryCount +
        ((registry.chosen supply).flatMap ArgumentGroup.members).length := by
  rw [slots_eq, List.length_map, ← List.countP_eq_length_filter,
    countP_receives _ (nodup_numbers_chosen h supply)
      fun group hgroup => h.divides.members group (chosen_subset supply group hgroup)]
  rfl

theorem length_slots_le (h : registry.WellFormed) {supply : Nat}
    (hsupply : registry.mandatoryCount ≤ supply) : (registry.slots supply).length ≤ supply := by
  have hspare := length_members_chooseGroups_le (supply - registry.mandatoryCount)
    (Layout.ofArguments registry.arguments).ranked
  rw [length_slots h, chosen]
  omega

/-- As long as nothing is left over by the mandatory arguments, only they receive tokens. -/
theorem slots_of_le (h : registry.WellFormed) {supply : Nat}
    (hsupply : supply ≤ registry.mandatoryCount) :
    registry.slots supply = registry.mandatoryArguments.map Declaration.name := by
  have hchosen : registry.chosen supply = [] := by
    rw [chosen, Nat.sub_eq_zero_of_le hsupply]
    exact chooseGroups_zero fun group hgroup =>
      h.divides.nonempty group ((Layout.ranked_perm _).mem_iff.1 hgroup)
  rw [slots_eq, hchosen, List.map_nil, receives_nil]
  rfl

theorem mem_slots_of_mandatory {supply : Nat} {argument : Declaration}
    (hargument : argument ∈ registry.mandatoryArguments) :
    argument.name ∈ registry.slots supply := by
  obtain ⟨hmem, hmandatory⟩ := List.mem_filter.1 hargument
  rw [slots_eq]
  refine List.mem_map_of_mem (List.mem_filter.2 ⟨hmem, ?_⟩)
  cases hgroup : argument.group with
  | none => simp [receives, hgroup]
  | some number => simp [Declaration.isOptional, hgroup] at hmandatory

/-- The primary names of the options are all different. -/
theorem WellFormed.nodup_map_name (h : registry.WellFormed) :
    (registry.options.map Declaration.name).Nodup := by
  refine List.Nodup.sublist ?_ h.distinct
  rw [names]
  induction registry.options with
  | nil => exact .slnil
  | cons option options ih =>
    rw [List.map_cons, List.flatMap_cons]
    exact (List.singleton_sublist.2 option.name_mem_names).append ih

theorem nodup_slots (h : registry.WellFormed) (supply : Nat) :
    (registry.slots supply).Nodup := by
  rw [slots_eq]
  exact ((List.filter_sublist.trans List.filter_sublist).map _).nodup h.nodup_map_name

/-! ## Allocation -/

/-- With tokens for all mandatory arguments, each slot receives the one in its place. -/
theorem allocate_of_le (h : registry.WellFormed) {tokens : List Text}
    (henough : registry.mandatoryArguments.length ≤ tokens.length) :
    registry.allocate tokens = .ok ⟨(registry.slots tokens.length).zip tokens,
      tokens.drop (registry.slots tokens.length).length⟩ :=
  handOut_of_le (length_slots_le h (mandatoryCount_eq ▸ henough))

/-- With too few tokens, the first mandatory argument without one is missing. -/
theorem allocate_of_lt (h : registry.WellFormed) {tokens : List Text} {argument : Declaration}
    (hargument : registry.mandatoryArguments[tokens.length]? = some argument) :
    registry.allocate tokens = .error (.argumentMissing argument.name) := by
  obtain ⟨hlt, rfl⟩ := List.getElem?_eq_some_iff.1 hargument
  have hslots : registry.slots tokens.length = registry.mandatoryArguments.map Declaration.name :=
    slots_of_le h (mandatoryCount_eq ▸ hlt.le)
  rw [allocate, hslots, handOut_of_lt (by simpa using hlt), List.getElem_map]

end Registry

end CommandLine

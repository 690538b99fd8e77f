import CommandLine.Matching.Match
import CommandLine.Proofs.Registry.WellFormed

/-!
# Binding the options

Every option is settled on its own: it is bound to what the command line says about it, or else to
its default. The bindings of a registry list what the options are settled on, under all their names,
and they exist if and only if no mandatory option is left without a binding.

Results:
* `Declaration.bindAll_of_bound`: the bindings of options that may all be bound.
* `Declaration.bindAll_of_missing`: the first mandatory option without a binding.
* `Declaration.lookup_bindings`: a name is bound to what its option is settled on.
-/

namespace CommandLine.Declaration

variable {occurrences : List Occurrence} {assigned : List (Text × Text)} {option : Declaration}
  {options : List Declaration}

/-! ## One option -/

/-- What an option is bound to: what the command line says about it, or else its default. -/
def settled? (option : Declaration) (occurrences : List Occurrence)
    (assigned : List (Text × Text)) : Option Binding :=
  (option.bound? occurrences assigned).or option.default?

theorem bound?_of_isArgument (h : option.isArgument = true) :
    option.bound? occurrences assigned = (assigned.lookup option.name).map .positional :=
  if_pos h

theorem bound?_of_not_isArgument (h : option.isArgument = false) :
    option.bound? occurrences assigned =
      Binding.ofReadings (readingsOf option.name occurrences) :=
  if_neg (by simp [h])

theorem bindNames_of_bound
    (h : option.isOptional = false → (option.bound? occurrences assigned).isSome = true) :
    option.bindNames occurrences assigned =
      .ok ((option.settled? occurrences assigned).elim [] option.spread) := by
  unfold bindNames settled?
  cases hbound : option.bound? occurrences assigned with
  | some binding => rfl
  | none =>
    have hoptional : option.isOptional = true := by
      by_contra hmandatory
      rw [hbound] at h
      simpa using h (by simpa using hmandatory)
    simp [hoptional]

theorem bindNames_of_missing (hmandatory : option.isOptional = false)
    (hbound : option.bound? occurrences assigned = none) :
    option.bindNames occurrences assigned = .error (.optionMissing option.name) := by
  simp [bindNames, hbound, hmandatory]

/-! ## All options -/

/-- The bindings of options that are settled in this way, under all their names. -/
def bindings (settle : Declaration → Option Binding) (options : List Declaration) :
    List (Text × Binding) :=
  options.flatMap fun option => (settle option).elim [] option.spread

/-- Where no mandatory option is left without a binding, the bindings are what the options are
    settled on. -/
theorem bindAll_of_bound (h : ∀ option ∈ options, option.isOptional = false →
      (option.bound? occurrences assigned).isSome = true) :
    bindAll occurrences assigned options =
      .ok (bindings (settled? · occurrences assigned) options) := by
  induction options with
  | nil => rfl
  | cons option options ih =>
    rw [bindAll, bindNames_of_bound (h option List.mem_cons_self),
      ih fun other hother => h other (List.mem_cons_of_mem _ hother)]
    rfl

/-- The first mandatory option without a binding is missing. -/
theorem bindAll_of_missing {front rest : List Declaration}
    (hfront : ∀ other ∈ front, other.isOptional = false →
      (other.bound? occurrences assigned).isSome = true)
    (hmandatory : option.isOptional = false)
    (hbound : option.bound? occurrences assigned = none) :
    bindAll occurrences assigned (front ++ option :: rest) =
      .error (.optionMissing option.name) := by
  induction front with
  | nil => rw [List.nil_append, bindAll, bindNames_of_missing hmandatory hbound]
  | cons other front ih =>
    rw [List.cons_append, bindAll, bindNames_of_bound (hfront other List.mem_cons_self),
      ih fun o ho => hfront o (List.mem_cons_of_mem _ ho)]
    rfl

/-! ## Looking up bindings -/

theorem lookup_spread_of_mem (binding : Binding) {name : Text} (h : name ∈ option.names) :
    (option.spread binding).lookup name = some binding := by
  unfold spread
  generalize option.names = names at h
  induction names with
  | nil => cases h
  | cons first others ih =>
    rw [List.map_cons, List.lookup_cons]
    by_cases heq : name = first
    · simp [heq]
    · rw [beq_eq_false_iff_ne.2 heq]
      exact ih ((List.mem_cons.1 h).resolve_left heq)

theorem map_fst_spread (option : Declaration) (binding : Binding) :
    (option.spread binding).map Prod.fst = option.names := by
  rw [spread, List.map_map]
  exact List.map_id _

theorem lookup_eq_none_of_notMem {entries : List (Text × Binding)} {name : Text}
    (h : name ∉ entries.map Prod.fst) : entries.lookup name = none := by
  rw [List.lookup_eq_none_iff]
  intro entry hentry
  refine bne_iff_ne.2 ?_
  rintro rfl
  exact h (List.mem_map_of_mem hentry)

/-- The names that are bound, in the order of declaration. -/
theorem map_fst_bindings_sublist (settle : Declaration → Option Binding)
    (options : List Declaration) :
    ((bindings settle options).map Prod.fst).Sublist (options.flatMap Declaration.names) := by
  induction options with
  | nil => exact .slnil
  | cons option options ih =>
    rw [bindings, List.flatMap_cons, List.map_append, List.flatMap_cons]
    refine List.Sublist.append ?_ ih
    cases settle option with
    | none => exact List.nil_sublist _
    | some binding => exact map_fst_spread option binding ▸ List.Sublist.refl _

/-- A name is bound to what its option is settled on. -/
theorem lookup_bindings {settle : Declaration → Option Binding}
    (hnames : (options.flatMap Declaration.names).Nodup) (hoption : option ∈ options) {name : Text}
    (hname : name ∈ option.names) : (bindings settle options).lookup name = settle option := by
  induction options with
  | nil => cases hoption
  | cons first options ih =>
    rw [List.flatMap_cons, List.nodup_append] at hnames
    obtain ⟨-, hrest, hdisjoint⟩ := hnames
    rw [bindings, List.flatMap_cons, List.lookup_append]
    rcases List.mem_cons.1 hoption with rfl | hoption
    · cases hsettle : settle option with
      | some binding => rw [Option.elim_some, lookup_spread_of_mem binding hname, Option.some_or]
      | none =>
        -- the name must not turn up among the options that follow
        have hnone : (bindings settle options).lookup name = none :=
          lookup_eq_none_of_notMem fun hmem =>
            hdisjoint name hname name ((map_fst_bindings_sublist settle options).mem hmem) rfl
        exact hnone
    · have hfirst : name ∉ first.names := fun hmem =>
        hdisjoint name hmem name (List.mem_flatMap.2 ⟨option, hoption, hname⟩) rfl
      have hnone : ((settle first).elim [] first.spread).lookup name = none := by
        cases settle first with
        | none => rfl
        | some binding => exact lookup_eq_none_of_notMem (map_fst_spread first binding ▸ hfirst)
      rw [hnone, Option.none_or]
      exact ih hrest hoption

end CommandLine.Declaration

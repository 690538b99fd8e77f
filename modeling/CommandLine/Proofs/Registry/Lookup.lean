import Mathlib.Data.List.Nodup
import CommandLine.Registry.Basic

/-!
# Looking up names

Where all names are different, a name belongs to one option and to one form of it, and looking it up
finds them.

* `Registry.lookup_eq_some_iff`: what a name is looked up as.
* `Registry.lookup_eq_none_iff`: when a name is not found.
* `Registry.get?_eq_some_iff`: what a primary name is looked up as.
-/

namespace CommandLine

theorem Declaration.form?_eq_some_iff {option : Declaration} (h : option.names.Nodup)
    {name : Text} {form : Form} :
    option.form? name = some form ↔ form ∈ option.forms ∧ form.name = name := by
  refine ⟨Declaration.form?_eq_some, ?_⟩
  rintro ⟨hform, rfl⟩
  unfold Declaration.form?
  unfold Declaration.names at h
  generalize option.forms = forms at h hform
  induction forms with
  | nil => simp at hform
  | cons other others ih =>
    rw [List.map_cons, List.nodup_cons] at h
    rcases List.mem_cons.1 hform with rfl | hform
    · simp
    · have hne : other.name ≠ form.name := fun heq => h.1 (heq ▸ List.mem_map_of_mem hform)
      rw [List.find?_cons_of_neg (by simpa using hne)]
      exact ih h.2 hform

theorem Declaration.form?_eq_none_iff {option : Declaration} {name : Text} :
    option.form? name = none ↔ name ∉ option.names := by
  rw [← Declaration.form?_isSome_iff, Option.not_isSome_iff_eq_none]

namespace Registry

theorem lookup_eq_none_iff {registry : Registry} {name : Text} :
    registry.lookup name = none ↔ name ∉ registry.names := by
  simp [lookup, names, List.findSome?_eq_none_iff, Declaration.form?_eq_none_iff]

/-- A name belongs to one option and to one of its forms. -/
theorem lookup_eq_some_iff {registry : Registry} (h : registry.names.Nodup) {name : Text}
    {option : Declaration} {form : Form} :
    registry.lookup name = some (option, form) ↔
      option ∈ registry.options ∧ form ∈ option.forms ∧ form.name = name := by
  refine ⟨lookup_eq_some, ?_⟩
  rintro ⟨hoption, hform, rfl⟩
  have hmem : form.name ∈ option.names := List.mem_map_of_mem hform
  unfold lookup
  unfold names at h
  generalize registry.options = options at h hoption
  induction options with
  | nil => simp at hoption
  | cons other others ih =>
    rw [List.flatMap_cons, List.nodup_append] at h
    obtain ⟨hnodup, hrest, hdisjoint⟩ := h
    rcases List.mem_cons.1 hoption with rfl | hoption
    · rw [List.findSome?_cons, (Declaration.form?_eq_some_iff hnodup).2 ⟨hform, rfl⟩]
      rfl
    · have hnone : other.form? form.name = none := by
        rw [Declaration.form?_eq_none_iff]
        intro hother
        exact hdisjoint _ hother form.name (List.mem_flatMap.2 ⟨option, hoption, hmem⟩) rfl
      rw [List.findSome?_cons, hnone]
      exact ih hrest hoption

/-- A primary name belongs to one option. -/
theorem get?_eq_some_iff {registry : Registry} (h : registry.names.Nodup) {name : Text}
    {option : Declaration} :
    registry.get? name = some option ↔ option ∈ registry.options ∧ option.name = name := by
  refine ⟨get?_eq_some, ?_⟩
  rintro ⟨hoption, rfl⟩
  cases hget : registry.get? option.name with
  | none =>
    have hnone := List.find?_eq_none.1 hget option hoption
    simp at hnone
  | some other =>
    obtain ⟨hother, hname⟩ := get?_eq_some hget
    have hfirst := (lookup_eq_some_iff h).2 ⟨hoption, List.mem_cons_self, rfl⟩
    have hsecond := (lookup_eq_some_iff h).2 ⟨hother, List.mem_cons_self, hname⟩
    have heq := hfirst.symm.trans hsecond
    cases heq
    rfl

end Registry

end CommandLine

import Mathlib.Data.List.Forall2
import CommandLine.Matching.Request
import CommandLine.Proofs.Registry.Lookup
import CommandLine.Proofs.Registry.WellFormed

/-!
# What option tokens ask for

An option token mentions forms. Each of them is declared by one option, or it is refused: because no
option has its name, or because the name belongs to a form of another kind. A token fits if none of
its forms is refused, and the first one that is decides otherwise.

Results:
* `Registry.resolve_eq_ok_iff`, `Registry.resolve_eq_error_iff`: what a form is resolved as.
* `Registry.request_of_owned`: what a token says and asks for, in terms of the options it mentions.
* `Registry.request_of_firstRefused`: the form on account of which a token does not fit.
-/

namespace CommandLine

namespace Registry

/-! ## Forms -/

/-- The option is declared in this very form. -/
def Declares (registry : Registry) (option : Declaration) (form : Form) : Prop :=
  option ∈ registry.options ∧ form ∈ option.forms

/-- Why a form names no option. -/
inductive Refuses (registry : Registry) (form : Form) : Misfit → Prop
  /-- No option has the name. -/
  | unknown (hname : form.name ∉ registry.names) : Refuses registry form (.unknown form.render)
  /-- The name belongs to a form of another kind. -/
  | wrongForm (hname : form.name ∈ registry.names)
      (hforms : ∀ option, ¬ registry.Declares option form) :
      Refuses registry form (.wrongForm form.render)

variable {registry : Registry} {form : Form} {option : Declaration} {reason : Misfit}

theorem mem_names_iff {name : Text} :
    name ∈ registry.names ↔ ∃ option form, registry.Declares option form ∧ form.name = name := by
  simp only [names, Declaration.names, List.mem_flatMap, List.mem_map, Declares]
  constructor
  · rintro ⟨option, hoption, form, hform, rfl⟩
    exact ⟨option, form, ⟨hoption, hform⟩, rfl⟩
  · rintro ⟨option, form, ⟨hoption, hform⟩, rfl⟩
    exact ⟨option, hoption, form, hform, rfl⟩

/-- A form is declared, or there is a reason to refuse it. -/
theorem declares_or_refuses (registry : Registry) (form : Form) :
    (∃ option, registry.Declares option form) ∨ ∃ reason, registry.Refuses form reason := by
  by_cases hforms : ∃ option, registry.Declares option form
  · exact .inl hforms
  · by_cases hname : form.name ∈ registry.names
    · exact .inr ⟨_, .wrongForm hname (not_exists.1 hforms)⟩
    · exact .inr ⟨_, .unknown hname⟩

theorem resolve_of_declares (hnames : registry.names.Nodup) (h : registry.Declares option form) :
    registry.resolve form = .ok option := by
  rw [resolve, (lookup_eq_some_iff hnames).2 ⟨h.1, h.2, rfl⟩]
  simp

theorem resolve_of_refuses (h : registry.Refuses form reason) :
    registry.resolve form = .error reason := by
  cases h with
  | unknown hname => rw [resolve, lookup_eq_none_iff.2 hname]
  | wrongForm hname hforms =>
    rw [resolve]
    split
    · next hlookup => exact absurd hname (lookup_eq_none_iff.1 hlookup)
    · next option declared hlookup =>
      obtain ⟨hoption, hform, hnamed⟩ := lookup_eq_some hlookup
      have hkind : declared.kind ≠ form.kind := by
        intro hkind
        obtain rfl : declared = form := by
          cases declared
          cases form
          simp_all
        exact hforms option ⟨hoption, hform⟩
      rw [if_neg hkind]

/-- A form is resolved as the option that declares it. -/
theorem resolve_eq_ok_iff (hnames : registry.names.Nodup) :
    registry.resolve form = .ok option ↔ registry.Declares option form := by
  refine ⟨fun h => ?_, resolve_of_declares hnames⟩
  rcases declares_or_refuses registry form with ⟨owner, howner⟩ | ⟨reason, hreason⟩
  · rw [resolve_of_declares hnames howner] at h
    cases h
    exact howner
  · rw [resolve_of_refuses hreason] at h
    cases h

theorem resolve_eq_error_iff (hnames : registry.names.Nodup) :
    registry.resolve form = .error reason ↔ registry.Refuses form reason := by
  refine ⟨fun h => ?_, resolve_of_refuses⟩
  rcases declares_or_refuses registry form with ⟨owner, howner⟩ | ⟨other, hother⟩
  · rw [resolve_of_declares hnames howner] at h
    cases h
  · rw [resolve_of_refuses hother] at h
    cases h
    exact hother

/-! ## Several forms -/

/-- The options that the forms mention, one for each. -/
def Owned (registry : Registry) (owners : List Declaration) (forms : List Form) : Prop :=
  List.Forall₂ registry.Declares owners forms

/-- The first of the forms that is refused, and why. -/
def FirstRefused (registry : Registry) (forms : List Form) (reason : Misfit) : Prop :=
  ∃ owners front form rest, forms = front ++ form :: rest ∧ registry.Owned owners front ∧
    registry.Refuses form reason

theorem owned_or_firstRefused (registry : Registry) (forms : List Form) :
    (∃ owners, registry.Owned owners forms) ∨ ∃ reason, registry.FirstRefused forms reason := by
  induction forms with
  | nil => exact .inl ⟨[], .nil⟩
  | cons form rest ih =>
    rcases declares_or_refuses registry form with ⟨owner, howner⟩ | ⟨reason, hreason⟩
    · rcases ih with ⟨owners, howners⟩ | ⟨reason, others, front, refused, back, rfl, hfront, h⟩
      · exact .inl ⟨owner :: owners, .cons howner howners⟩
      · exact .inr ⟨reason, owner :: others, form :: front, refused, back, rfl,
          .cons howner hfront, h⟩
    · exact .inr ⟨reason, [], [], form, rest, rfl, .nil, hreason⟩

end Registry

/-! ## Mentions -/

namespace Mention

/-- The forms that are mentioned. A dash without letters is a short form without a name. -/
def forms : Mention → List Form
  | .long name => [⟨.long, name⟩]
  | .short [] => [⟨.short, []⟩]
  | .short (letter :: letters) => (letter :: letters).map fun letter => ⟨.short, [letter]⟩

/-- What is said about an option that does not read a value. -/
def reading : Mention → Reading
  | .long _ => .switched
  | .short _ => .counted

/-- What is said about an option that does not read a value, with its name. -/
def plain (mention : Mention) (owner : Declaration) : Occurrence := ⟨owner.name, mention.reading⟩

end Mention

/-- Whether a token that mentions these options reads a value: the first one and the last one both
    take one. -/
def asksValue (owners : List Declaration) : Bool :=
  owners.head?.any Declaration.takesValue && owners.getLast?.any Declaration.takesValue

/-- What a mention says about its options when the last of them reads this value, if any. -/
def Mention.said (mention : Mention) (owners : List Declaration) : Option Text → List Occurrence
  | none => owners.map mention.plain
  | some value =>
    owners.dropLast.map mention.plain ++
      owners.getLast?.toList.map fun owner => ⟨owner.name, .given value⟩

/-- What a mention says about its options and asks for. -/
def Mention.requestOf (mention : Mention) (owners : List Declaration) : Request :=
  if asksValue owners then
    ⟨owners.dropLast.map mention.plain, owners.getLast?.bind fun owner =>
      mention.forms.getLast?.map fun form => ⟨owner.name, form⟩⟩
  else ⟨owners.map mention.plain, none⟩

namespace Registry

variable {registry : Registry}

/-! ## Requests -/

theorem requestLetters_of_owned (hnames : registry.names.Nodup) (reads : Bool) {letters : Text}
    {owners : List Declaration}
    (howners : registry.Owned owners (letters.map fun letter => ⟨.short, [letter]⟩)) :
    registry.requestLetters reads letters = .ok
      (if reads && owners.getLast?.any Declaration.takesValue then
        ⟨owners.dropLast.map (Mention.short letters).plain, owners.getLast?.bind fun owner =>
          letters.getLast?.map fun letter => ⟨owner.name, ⟨.short, [letter]⟩⟩⟩
      else ⟨owners.map (Mention.short letters).plain, none⟩) := by
  induction letters generalizing owners with
  | nil =>
    cases howners
    simp [requestLetters]
  | cons letter letters ih =>
    cases howners with
    | @cons owner _ others _ howner hothers =>
      cases letters with
      | nil =>
        cases hothers
        rw [requestLetters, resolve_of_declares hnames howner]
        simp only [map_ok, List.getLast?_singleton, Option.any_some, List.dropLast_singleton,
          List.map_nil, Option.bind_some, Option.map_some, List.map_cons]
        rfl
      | cons second letters =>
        obtain ⟨next, others, rfl⟩ : ∃ next tail, others = next :: tail := by
          cases hothers
          exact ⟨_, _, rfl⟩
        rw [requestLetters, resolve_of_declares hnames howner, ih hothers]
        · simp only [map_ok, List.getLast?_cons_cons, List.dropLast_cons_cons]
          split <;> rfl
        · simp

theorem requestLetters_of_refused (hnames : registry.names.Nodup) (reads : Bool)
    {front rest : Text} {letter : Char} {owners : List Declaration} {reason : Misfit}
    (howners : registry.Owned owners (front.map fun letter => ⟨.short, [letter]⟩))
    (h : registry.Refuses ⟨.short, [letter]⟩ reason) :
    registry.requestLetters reads (front ++ letter :: rest) = .error reason := by
  induction front generalizing owners with
  | nil =>
    cases rest with
    | nil => rw [List.nil_append, requestLetters, resolve_of_refuses h]; rfl
    | cons second rest =>
      rw [List.nil_append, requestLetters, resolve_of_refuses h]
      simp
  | cons first front ih =>
    cases howners with
    | cons howner howners =>
      rw [List.cons_append, requestLetters, resolve_of_declares hnames howner, ih howners]
      · rfl
      · simp

theorem name_ne_nil_of_declares (h : registry.WellFormed) {option : Declaration} {form : Form}
    (hform : registry.Declares option form) : form.name ≠ [] :=
  ((h.options option hform.1).words form hform.2).1

/-- What an option token says and asks for, in terms of the options that it mentions. -/
theorem request_of_owned (h : registry.WellFormed) {mention : Mention} {owners : List Declaration}
    (howners : registry.Owned owners mention.forms) :
    registry.request mention = .ok (mention.requestOf owners) := by
  match mention with
  | .long name =>
    obtain ⟨owner, rfl, howner⟩ : ∃ owner, owners = [owner] ∧
        registry.Declares owner ⟨.long, name⟩ := by
      cases howners with
      | cons howner hnil =>
        cases hnil
        exact ⟨_, rfl, howner⟩
    rw [request, requestLong, resolve_of_declares h.distinct howner]
    simp only [map_ok, Mention.requestOf, asksValue, List.head?_cons, List.getLast?_singleton,
      Option.any_some, Bool.and_self]
    rfl
  | .short [] =>
    cases howners with
    | cons howner _ => exact absurd rfl (name_ne_nil_of_declares h howner)
  | .short (first :: letters) =>
    obtain ⟨owner, others, rfl, howner⟩ : ∃ owner others, owners = owner :: others ∧
        registry.Declares owner ⟨.short, [first]⟩ := by
      cases howners with
      | cons howner _ => exact ⟨_, _, rfl, howner⟩
    rw [request, requestShort, resolve_of_declares h.distinct howner]
    dsimp only
    rw [requestLetters_of_owned h.distinct _ howners]
    simp only [Mention.requestOf, Mention.forms, asksValue, List.head?_cons, Option.any_some,
      List.getLast?_map, Option.map_map]
    rfl

/-- The first form that is refused decides why a token does not fit. -/
theorem request_of_firstRefused (h : registry.WellFormed) {mention : Mention} {reason : Misfit}
    (hrefused : registry.FirstRefused mention.forms reason) :
    registry.request mention = .error reason := by
  obtain ⟨owners, front, form, rest, hforms, howners, hreason⟩ := hrefused
  match mention with
  | .long name =>
    obtain ⟨rfl, rfl, rfl⟩ : front = [] ∧ form = ⟨.long, name⟩ ∧ rest = [] := by
      simpa [Mention.forms, List.singleton_eq_append_iff] using hforms
    rw [request, requestLong, resolve_of_refuses hreason, map_error]
  | .short [] =>
    obtain ⟨rfl, rfl, rfl⟩ : front = [] ∧ form = ⟨.short, []⟩ ∧ rest = [] := by
      simpa [Mention.forms, List.singleton_eq_append_iff] using hforms
    cases hreason with
    | unknown _ => rfl
    | wrongForm hname _ =>
      obtain ⟨option, form, hform, hnil⟩ := mem_names_iff.1 hname
      exact absurd hnil (name_ne_nil_of_declares h hform)
  | .short (first :: letters) =>
    obtain ⟨before, others, hletters, rfl, hothers⟩ := List.map_eq_append_iff.1 hforms
    obtain ⟨letter, after, rfl, rfl, rfl⟩ := List.map_eq_cons_iff.1 hothers
    rw [request, requestShort]
    cases before with
    | nil =>
      obtain ⟨rfl, rfl⟩ := List.cons.inj hletters
      rw [resolve_of_refuses hreason]
    | cons head before =>
      obtain ⟨rfl, rfl⟩ := List.cons.inj hletters
      obtain ⟨owner, howner⟩ : ∃ owner, registry.Declares owner ⟨.short, [first]⟩ := by
        cases howners with
        | cons howner _ => exact ⟨_, howner⟩
      rw [resolve_of_declares h.distinct howner]
      exact requestLetters_of_refused h.distinct _ howners hreason

end Registry

end CommandLine

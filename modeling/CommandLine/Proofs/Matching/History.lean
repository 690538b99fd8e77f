import Mathlib.Data.List.DropRight
import CommandLine.Proofs.Matching.Choice

/-!
# The history of an option

An option may occur many times in a command line, in any of its forms and between other options. Its
occurrences make up its history, and the end of the history decides what it is bound to: a long form
without a value switches it on, a value is kept, and short forms at the end are counted back to the
last occurrence that was something else. Nothing that is said about other options plays a role.

Results:
* `Binding.ofReadings_eq_ofHistory`: the end of a history decides.
* `Registry.Reads.readingsOf_eq_history`: what is said about an option is its history.
* `Registry.get?_eq_ofHistory`: what a match binds an option to.
-/

namespace CommandLine

/-! ## Histories -/

/-- What forms say, one after the other, when the last of them reads this value, if there is one:
    any other long form switches its option on, and any other short form is counted. -/
def statements (value : Option Text) : List Form → List (Form × Reading)
  | [] => []
  | [form] => [(form, value.elim form.reading .given)]
  | form :: forms => (form, form.reading) :: statements value forms

/-- What the forms of a piece say. -/
def Piece.statements : Piece → List (Form × Reading)
  | .option token value said =>
    CommandLine.statements value (Piece.option token value said).mentioned
  | _ => []

/-- What is said about an option in all of its forms, in order. -/
def Declaration.heard (option : Declaration) (said : List (Form × Reading)) : List Reading :=
  said.filterMap fun statement => if statement.1 ∈ option.forms then some statement.2 else none

/-- The occurrences of an option in a command line, in order and whatever form was used. -/
def Declaration.history (option : Declaration) (pieces : List Piece) : List Reading :=
  option.heard (pieces.flatMap Piece.statements)

/-- What a history amounts to. Its last occurrence decides; if that is counted, then so are all the
    occurrences in front of it up to one of another kind. -/
def Binding.ofHistory (history : List Reading) : Option Binding :=
  history.getLast?.map fun
    | .switched => .flag true
    | .given text => .value (some text)
    | .counted => .count (history.rtakeWhile (· = .counted)).length

/-! ## The end of a history -/

/-- A count goes on from a count at the end of a history and starts again after anything else. -/
theorem Binding.after_counted_ofHistory (history : List Reading) :
    Binding.after (Binding.ofHistory history) .counted =
      .count ((history.rtakeWhile (· = .counted)).length + 1) := by
  rcases List.eq_nil_or_concat' history with rfl | ⟨front, last, rfl⟩
  · rfl
  · rw [ofHistory, List.getLast?_concat, Option.map_some]
    cases last with
    | switched => rw [List.rtakeWhile_concat_neg _ _ _ (by simp)]; rfl
    | given text => rw [List.rtakeWhile_concat_neg _ _ _ (by simp)]; rfl
    | counted => rfl

/-- The end of a history decides what it amounts to. -/
theorem Binding.ofReadings_eq_ofHistory (history : List Reading) :
    Binding.ofReadings history = Binding.ofHistory history := by
  induction history using List.reverseRecOn with
  | nil => rfl
  | append_singleton front last ih =>
    rw [ofReadings_append_singleton, ih]
    cases last with
    | switched => simp [after, ofHistory]
    | given text => simp [after, ofHistory]
    | counted =>
      rw [after_counted_ofHistory, ofHistory, List.getLast?_concat, Option.map_some,
        List.rtakeWhile_concat_pos _ _ _ (by simp), List.length_append, List.length_singleton]

/-! ## What the pieces say -/

theorem statements_cons_cons (value : Option Text) (form next : Form) (forms : List Form) :
    statements value (form :: next :: forms) =
      (form, form.reading) :: statements value (next :: forms) := rfl

theorem Mention.said_cons_cons (mention : Mention) (owner next : Declaration)
    (owners : List Declaration) (value : Option Text) :
    mention.said (owner :: next :: owners) value =
      mention.plain owner :: mention.said (next :: owners) value := by
  cases value with
  | none => rfl
  | some text => simp [said]

/-- The forms of a token say what the token says. -/
theorem Mention.reading_eq {mention : Mention} {form : Form} (h : form ∈ mention.forms) :
    mention.reading = form.reading := by
  rcases Registry.kind_of_mem_forms h with ⟨hkind, hreading, -⟩ | ⟨hkind, hreading⟩
  · rw [hreading, Form.reading, if_pos hkind]
  · rw [hreading, Form.reading, if_neg (by simp [hkind])]

theorem Declaration.heard_cons (option : Declaration) (form : Form) (reading : Reading)
    (said : List (Form × Reading)) :
    option.heard ((form, reading) :: said) =
      (if form ∈ option.forms then [reading] else []) ++ option.heard said := by
  by_cases hform : form ∈ option.forms <;> simp [heard, hform]

theorem readingsOf_cons (owner name : Text) (reading : Reading) (said : List Occurrence) :
    readingsOf owner (⟨name, reading⟩ :: said) =
      (if name = owner then [reading] else []) ++ readingsOf owner said := by
  by_cases hname : name = owner <;> simp [readingsOf, hname]

namespace Registry

variable {registry : Registry} {option : Declaration}

/-- A form belongs to the option with the name of its owner. -/
theorem Declares.name_eq_iff (hnames : registry.names.Nodup) {owner : Declaration} {form : Form}
    (h : registry.Declares owner form) (hoption : option ∈ registry.options) :
    owner.name = option.name ↔ form ∈ option.forms := by
  constructor
  · intro hname
    rw [← eq_of_name_eq hnames hoption h.1 hname]
    exact h.2
  · intro hform
    rw [(Declares.unique hnames h ⟨hoption, hform⟩ rfl).1]

/-- What a token says about an option is what the forms of the option say in it. -/
theorem readingsOf_said_eq_heard (hnames : registry.names.Nodup) (mention : Mention)
    {owners : List Declaration} {forms : List Form} (howners : registry.Owned owners forms)
    (hforms : ∀ form ∈ forms, mention.reading = form.reading) (value : Option Text)
    (hoption : option ∈ registry.options) :
    readingsOf option.name (mention.said owners value) =
      option.heard (statements value forms) := by
  induction howners with
  | nil => cases value <;> rfl
  | @cons owner form owners forms howner howners ih =>
    have hreading := hforms form List.mem_cons_self
    have hmine := howner.name_eq_iff hnames hoption
    -- only the last owner of a token reads its value
    cases howners with
    | nil =>
      have hsaid : mention.said [owner] value =
          [⟨owner.name, value.elim form.reading .given⟩] := by
        cases value with
        | none => simp [Mention.said, Mention.plain, hreading]
        | some text => rfl
      rw [hsaid, statements, readingsOf_cons, option.heard_cons]
      simp only [hmine]
      rfl
    | cons =>
      rw [Mention.said_cons_cons, statements_cons_cons, Mention.plain, readingsOf_cons,
        option.heard_cons, ih fun other hother => hforms other (List.mem_cons_of_mem _ hother),
        hreading]
      simp only [hmine]

theorem Admits.readingsOf_eq_heard (hnames : registry.names.Nodup) {piece : Piece}
    (h : registry.Admits piece) (hoption : option ∈ registry.options) :
    readingsOf option.name piece.occurrences = option.heard piece.statements := by
  cases h with
  | positional => rfl
  | @option token mention owners value hshape howners hvalue =>
    rw [Piece.occurrences, Piece.statements, mentioned_option hshape]
    exact readingsOf_said_eq_heard hnames mention howners
      (fun form hform => Mention.reading_eq hform) value hoption

theorem history_cons (piece : Piece) (pieces : List Piece) :
    option.history (piece :: pieces) = option.heard piece.statements ++ option.history pieces := by
  rw [Declaration.history, List.flatMap_cons, Declaration.heard, List.filterMap_append]
  rfl

theorem history_map_positional (tokens : List Text) :
    option.history (tokens.map .positional) = [] := by
  induction tokens with
  | nil => rfl
  | cons token tokens ih => rw [List.map_cons, history_cons, ih]; rfl

/-- What a command line says about an option is the history of the option. -/
theorem Reads.readingsOf_eq_history (hnames : registry.names.Nodup) {tokens : List Text}
    {pieces : List Piece} (hreads : registry.Reads tokens pieces)
    (hoption : option ∈ registry.options) :
    readingsOf option.name (occurrences pieces) = option.history pieces := by
  induction hreads with
  | done => rfl
  | ended rest =>
    rw [occurrences_cons, readingsOf_append, occurrences_map_positional, history_cons,
      history_map_positional]
    rfl
  | piece hpiece _ ih =>
    rw [occurrences_cons, readingsOf_append, history_cons, ih,
      hpiece.readingsOf_eq_heard hnames hoption]

/-- An option has a history just if it occurs. -/
theorem Reads.history_eq_nil_iff (hnames : registry.names.Nodup) {tokens : List Text}
    {pieces : List Piece} (hreads : registry.Reads tokens pieces)
    (hoption : option ∈ registry.options) :
    option.history pieces = [] ↔ ¬ option.OccursIn pieces := by
  rw [← hreads.readingsOf_eq_history hnames hoption, hreads.readingsOf_eq_nil_iff hnames hoption]

/-! ## Matches -/

/-- An option with a history is bound to what the history amounts to, under all its names. -/
theorem get?_matchOf_of_history (h : registry.WellFormed) {tokens : List Text}
    {pieces : List Piece} (hreads : registry.Reads tokens pieces)
    (hoption : option ∈ registry.options) (hkind : option.isArgument = false)
    (hhistory : option.history pieces ≠ []) {name : Text} (hname : name ∈ option.names) :
    (registry.matchOf pieces).get? name = Binding.ofHistory (option.history pieces) := by
  have hoccurs : option.OccursIn pieces := by
    by_contra hmissing
    exact hhistory ((hreads.history_eq_nil_iff h.distinct hoption).2 hmissing)
  have hbound := (bound?_isSome_iff h hreads hoption hkind
    (registry.assignment (positionals pieces))).2 hoccurs
  rw [get?_matchOf h pieces hoption hname, settle, Declaration.settled?,
    Option.or_of_isSome hbound, Declaration.bound?_of_not_isArgument hkind,
    hreads.readingsOf_eq_history h.distinct hoption, Binding.ofReadings_eq_ofHistory]

/-- A match binds every option that occurs to what its history amounts to, under all its names. Any
    other match binds it to the same if the history is the same, whatever is said about the other
    options. -/
theorem get?_eq_ofHistory {definition : Text} (hread : Registry.read definition = .ok registry)
    {tokens : List Text} {found : Match} (hfit : registry.fit tokens = .ok found) :
    ∃ pieces, registry.Reads tokens pieces ∧
      (∀ others, registry.Reads tokens others → others = pieces) ∧
      ∀ option ∈ registry.options, option.isArgument = false → option.OccursIn pieces →
        option.history pieces ≠ [] ∧
        (∀ name ∈ option.names,
          found.get? name = Binding.ofHistory (option.history pieces)) ∧
        ∀ line others other, registry.Reads line others → registry.fit line = .ok other →
          option.history others = option.history pieces →
            ∀ name ∈ option.names, other.get? name = found.get? name := by
  have h := wellFormed_of_read hread
  obtain ⟨pieces, hreads, hunique, -, rfl⟩ := exists_matchOf_of_fit h hfit
  refine ⟨pieces, hreads, hunique, fun option hoption hkind hoccurs => ?_⟩
  have hhistory : option.history pieces ≠ [] := fun hnil =>
    (hreads.history_eq_nil_iff h.distinct hoption).1 hnil hoccurs
  refine ⟨hhistory, fun name hname => ?_, ?_⟩
  · exact get?_matchOf_of_history h hreads hoption hkind hhistory hname
  · intro line others other hothers hother hsame name hname
    obtain ⟨_, _, hunique, -, rfl⟩ := exists_matchOf_of_fit h hother
    obtain rfl := hunique others hothers
    rw [get?_matchOf_of_history h hothers hoption hkind (hsame ▸ hhistory) hname,
      get?_matchOf_of_history h hreads hoption hkind hhistory hname, hsame]

/-- Here the first of two options is counted, switched on, and counted three times, alone and in
    tokens with the other one, whose value looks like another occurrence. -/
theorem get?_of_mixed_history : ∃ registry pieces option,
    Registry.read ['-', 'f', '|', '-', '-', 'f', 'o', 'r', 'c', 'e', ' ', '-', 'n', '='] =
        .ok registry ∧
      registry.Reads [['-', 'f'], ['-', '-', 'f', 'o', 'r', 'c', 'e'], ['-', 'n', 'f'],
        ['-', 'n', 'f', 'n'], ['-', 'f'], ['-', 'f']] pieces ∧
      registry.fit [['-', 'f'], ['-', '-', 'f', 'o', 'r', 'c', 'e'], ['-', 'n', 'f'],
        ['-', 'n', 'f', 'n'], ['-', 'f'], ['-', 'f']] =
          .ok ⟨[(['f'], .count 3), (['f', 'o', 'r', 'c', 'e'], .count 3),
            (['n'], .value (some ['-', 'f']))], []⟩ ∧
      option ∈ registry.options ∧ option.names = [['f'], ['f', 'o', 'r', 'c', 'e']] ∧
      option.OccursIn pieces ∧
      option.history pieces = [.counted, .switched, .counted, .counted, .counted] ∧
      ∀ name ∈ option.names,
        (⟨[(['f'], .count 3), (['f', 'o', 'r', 'c', 'e'], .count 3),
          (['n'], .value (some ['-', 'f']))], []⟩ : Match).get? name =
            Binding.ofHistory (option.history pieces) := by
  let force : Declaration :=
    ⟨⟨.short, ['f']⟩, [⟨⟨.long, ['f', 'o', 'r', 'c', 'e']⟩, false, none⟩], false, none⟩
  let registry : Registry := ⟨[force, ⟨⟨.short, ['n']⟩, [], true, none⟩], none⟩
  let pieces : List Piece :=
    [.option ['-', 'f'] none [⟨['f'], .counted⟩],
      .option ['-', '-', 'f', 'o', 'r', 'c', 'e'] none [⟨['f'], .switched⟩],
      .option ['-', 'n', 'f'] none [⟨['n'], .counted⟩, ⟨['f'], .counted⟩],
      .option ['-', 'n', 'f', 'n'] (some ['-', 'f'])
        [⟨['n'], .counted⟩, ⟨['f'], .counted⟩, ⟨['n'], .given ['-', 'f']⟩],
      .option ['-', 'f'] none [⟨['f'], .counted⟩]]
  have hread : Registry.read
    ['-', 'f', '|', '-', '-', 'f', 'o', 'r', 'c', 'e', ' ', '-', 'n', '='] = .ok registry := rfl
  have hscan : registry.scan [['-', 'f'], ['-', '-', 'f', 'o', 'r', 'c', 'e'], ['-', 'n', 'f'],
    ['-', 'n', 'f', 'n'], ['-', 'f'], ['-', 'f']] = .ok pieces := rfl
  have hfit : registry.fit [['-', 'f'], ['-', '-', 'f', 'o', 'r', 'c', 'e'], ['-', 'n', 'f'],
      ['-', 'n', 'f', 'n'], ['-', 'f'], ['-', 'f']] =
    .ok ⟨[(['f'], .count 3), (['f', 'o', 'r', 'c', 'e'], .count 3),
      (['n'], .value (some ['-', 'f']))], []⟩ := rfl
  have hreads := (scan_eq_ok_iff (wellFormed_of_read hread)).1 hscan
  have hoccurs : force.OccursIn pieces :=
    ⟨_, List.mem_cons_self, force.primary, List.mem_cons_self, List.mem_cons_self⟩
  obtain ⟨found, -, hunique, hbinds⟩ := get?_eq_ofHistory hread hfit
  obtain rfl := hunique pieces hreads
  exact ⟨registry, pieces, force, hread, hreads, hfit, List.mem_cons_self, rfl, hoccurs, rfl,
    (hbinds force List.mem_cons_self rfl hoccurs).2.1⟩

end Registry

end CommandLine

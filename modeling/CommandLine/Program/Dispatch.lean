import CommandLine.Program.Basic

/-!
# Dispatch

The first token selects entries by name: those with exactly this name or, if there are none, those
with the only name that it is the beginning of. The rest of the tokens goes to each of the selected
entries in turn, until one of them has a command that matches.

* `selects`: whether a token selects a name among others.
* `Program.dispatch`: the answer of the first command that matches.
-/

namespace CommandLine

/-- Whether `token` selects the entries called `name` among entries with these names. A token that
    is the beginning of two different names selects nothing, and neither does the empty token,
    unless an entry has the empty name. -/
def selects (names : List Text) (token name : Text) : Bool :=
  if token ∈ names then name = token
  else token ≠ [] && token.isPrefixOf name &&
    names.all fun other => token.isPrefixOf other → other = name

variable {ρ : Type}

namespace Entry

mutual

/-- The answer of the first command of an entry that matches the tokens behind its name. -/
def run (tokens : List Text) : Entry (Prepared ρ) → Option ρ
  | .command _ prepared =>
    match prepared.registry.fit tokens with
    | .ok found => some (prepared.handler found)
    | .error _ => none
  | .group _ entries =>
    match tokens with
    | [] => none
    | token :: rest => runSelected (selects (entries.map name) token) rest entries

/-- The answer of the first command that matches in one of the selected entries. -/
def runSelected (selected : Text → Bool) (tokens : List Text) :
    List (Entry (Prepared ρ)) → Option ρ
  | [] => none
  | entry :: entries =>
    let answer := if selected entry.name then run tokens entry else none
    match answer with
    | some result => some result
    | none => runSelected selected tokens entries

end

/-- The answer of the first command of a list of entries that matches the tokens. -/
def dispatch (entries : List (Entry (Prepared ρ))) : List Text → Option ρ
  | [] => none
  | token :: rest => runSelected (selects (entries.map name) token) rest entries

/-! ## Small facts -/

/-- A group hands its tokens to its own entries. -/
theorem run_group (name : Text) (entries : List (Entry (Prepared ρ))) (tokens : List Text) :
    run tokens (.group name entries) = dispatch entries tokens := by
  cases tokens <;> simp [run, dispatch]

/-- The selected entries are tried in order, up to the first answer. -/
theorem runSelected_eq_findSome? (selected : Text → Bool) (tokens : List Text)
    (entries : List (Entry (Prepared ρ))) :
    runSelected selected tokens entries =
      (entries.filter fun entry => selected entry.name).findSome? (run tokens) := by
  induction entries with
  | nil => simp [runSelected]
  | cons entry entries ih =>
    rw [runSelected, ih]
    by_cases h : selected entry.name = true
    · simp only [h, if_true, List.filter_cons_of_pos, List.findSome?_cons]
      cases run tokens entry <;> rfl
    · simp [h]

end Entry

/-- The answer of the first command of a program that matches the tokens. -/
def Program.dispatch (program : Program (Prepared ρ)) (tokens : List Text) : Option ρ :=
  Entry.dispatch program.entries tokens

end CommandLine

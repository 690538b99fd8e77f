/-!
# Results or reasons

Functions that may refuse their input answer with a result or with the reason for the refusal. These
facts say when an answer that is passed on under a function is a result, or a reason, and that a
result is passed on as it is.
-/

namespace CommandLine

variable {ε α β : Type}

@[simp] theorem map_ok (f : α → β) (result : α) :
    (Except.ok result : Except ε α).map f = .ok (f result) := rfl

@[simp] theorem map_error (f : α → β) (reason : ε) :
    (Except.error reason : Except ε α).map f = .error reason := rfl

theorem ok_bind (result : α) (next : α → Except ε β) : (Except.ok result >>= next) = next result :=
  rfl

theorem map_eq_ok_iff {f : α → β} {answer : Except ε α} {result : β} :
    answer.map f = .ok result ↔ ∃ found, answer = .ok found ∧ f found = result := by
  cases answer <;> simp

theorem map_eq_error_iff {f : α → β} {answer : Except ε α} {reason : ε} :
    answer.map f = .error reason ↔ answer = .error reason := by
  cases answer <;> simp

end CommandLine

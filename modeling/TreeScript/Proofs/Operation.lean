import TreeScript.Operation

/-!
What operators can give, and what they fail for.
-/
namespace TreeScript.Operator

/-- An operator gives an integer, a text or a truth value, or fails for a zero divisor or
for the kinds of its operands. -/
def Results (op : Operator) (a b : Value) : Outcome → Prop
  | .ok v => v.kind = .int ∨ v.kind = .str ∨ v.kind = .bool
  | .error e => e.cause = .divisionByZero ∨ e.cause = .invalidOperation op a.kind b.kind

theorem results_invalid (op : Operator) (a b : Value) : Results op a b (invalid op a b) := .inr rfl

theorem results_applyInts {op : Operator} {a b : Value} {f : Int → Int → Outcome}
    (hf : ∀ m n, Results op a b (f m n)) : Results op a b (applyInts op a b f) := by
  unfold applyInts
  split
  · exact hf _ _
  · exact results_invalid op a b

theorem results_divided (op : Operator) (a b : Value) (f : Int → Int → Int) (m n : Int) :
    Results op a b (divided f m n) := by
  unfold divided
  split
  · exact .inl rfl
  · exact .inl rfl

theorem results_applyAdd (a b : Value) : Results .add a b (applyAdd a b) := by
  unfold applyAdd
  split
  · exact .inl rfl
  · split
    · exact .inr (.inl rfl)
    · exact results_invalid .add a b

theorem results_apply (op : Operator) (a b : Value) : Results op a b (op.apply a b) := by
  cases op with
  | add => exact results_applyAdd a b
  | sub | mul => exact results_applyInts fun m n => .inl rfl
  | div | rem => exact results_applyInts (results_divided _ a b _)
  | lt | gt | lte | gte => exact results_applyInts fun m n => .inr (.inr rfl)
  | eq | neq | and | or => exact .inr (.inr rfl)

theorem applyInts_eq_error {op : Operator} {a b : Value} {f : Int → Int → Outcome} {e : Failure}
    (h : applyInts op a b f = .error e) :
    (∃ m n, f m n = .error e) ∨ e = .ofCause (.invalidOperation op a.kind b.kind) := by
  unfold applyInts at h
  split at h
  · exact .inl ⟨_, _, h⟩
  · exact .inr (Except.error.inj h).symm

theorem divided_eq_error {f : Int → Int → Int} {m n : Int} {e : Failure}
    (h : divided f m n = .error e) : e = .ofCause .divisionByZero := by
  unfold divided at h
  split at h
  · exact (Except.error.inj h).symm
  · cases h

theorem applyAdd_eq_error {a b : Value} {e : Failure} (h : applyAdd a b = .error e) :
    e = .ofCause (.invalidOperation .add a.kind b.kind) := by
  unfold applyAdd at h
  split at h
  · cases h
  · split at h
    · cases h
    · exact (Except.error.inj h).symm

/-- Only a quotient or a remainder fails for a zero divisor; any other failure is one for the
kinds of the operands. It carries nothing but its cause. -/
theorem apply_eq_error {op : Operator} {a b : Value} {e : Failure} (h : op.apply a b = .error e) :
    e = .ofCause .divisionByZero ∧ (op = .div ∨ op = .rem) ∨
      e = .ofCause (.invalidOperation op a.kind b.kind) := by
  cases op with
  | add => exact .inr (applyAdd_eq_error h)
  | sub | mul | lt | gt | lte | gte =>
    rcases applyInts_eq_error h with ⟨m, n, hmn⟩ | he
    · cases hmn
    · exact .inr he
  | div =>
    rcases applyInts_eq_error h with ⟨m, n, hmn⟩ | he
    · exact .inl ⟨divided_eq_error hmn, .inl rfl⟩
    · exact .inr he
  | rem =>
    rcases applyInts_eq_error h with ⟨m, n, hmn⟩ | he
    · exact .inl ⟨divided_eq_error hmn, .inr rfl⟩
    · exact .inr he
  | eq | neq | and | or => cases h

end TreeScript.Operator

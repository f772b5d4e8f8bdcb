import TreeScript.Proofs.Evaluation.Output

/-!
What a host asks an interpreter to do: evaluate a term in a frame, or run the text of a program.
-/
namespace TreeScript

inductive Task where
  | evaluate (t : Term) (f : FrameId)
  | run (source : String)

/-- The result of a task and the interpreter after it, if the fuel lasts. -/
def Task.perform (fuel : Nat) (task : Task) (i : Interpreter) :
    Option (Except RunFailure Value × Interpreter) :=
  match task with
  | .evaluate t f => (i.evaluate fuel t f).map fun x => (x.1.mapError .eval, x.2)
  | .run source => i.runSource fuel source

namespace Interpreter

open Evaluation (History)

/-- The task comes to its end by way of these answers. A text that is no program has none. -/
inductive Performs (i : Interpreter) :
    Task → History → Except RunFailure Value → Interpreter → Prop where
  | evaluate {t : Term} {f : FrameId} {history : History} {o : Outcome} {j : Interpreter} :
      i.Recounts t f history o j → Performs i (.evaluate t f) history (o.mapError .eval) j
  | run {source : String} {p : Program} {history : History} {o : Outcome} {j : Interpreter} :
      Document.parseProgram source = .ok p → i.Recounts p.expression i.root history o j →
      Performs i (.run source) history (o.mapError .eval) j
  | undecoded {source : String} {e : Document.Error} :
      Document.parseProgram source = .error e →
      Performs i (.run source) [] (.error (.decode e)) i

variable {i j : Interpreter} {task : Task} {r : Except RunFailure Value}

section Run
variable {source : String} {fuel : Nat}

/-- A text that is a program is run as its tree is evaluated in the root. -/
theorem perform_run_of_ok {p : Program} (hp : Document.parseProgram source = .ok p) :
    (Task.run source).perform fuel i = (Task.evaluate p.expression i.root).perform fuel i := by
  simp only [Task.perform, runSource, runDecoded, hp]
  cases i.evaluate fuel p.expression i.root <;> rfl

theorem perform_run_of_error {e : Document.Error} (he : Document.parseProgram source = .error e) :
    (Task.run source).perform fuel i = some (.error (.decode e), i) := by
  simp only [Task.perform, runSource, runDecoded, he]

end Run

theorem exists_recounts_of_perform {fuel : Nat} {t : Term} {f : FrameId}
    (h : (Task.evaluate t f).perform fuel i = some (r, j)) :
    ∃ history o, i.Recounts t f history o j ∧ r = o.mapError .eval := by
  obtain ⟨⟨o, k⟩, hrun, ⟨⟩⟩ := Option.map_eq_some_iff.mp h
  have hreturns : i.Returns t f o k := ⟨fuel, hrun⟩
  obtain ⟨history, hrun⟩ := hreturns.exists_recounts
  exact ⟨history, o, hrun, rfl⟩

theorem Recounts.exists_perform {t : Term} {f : FrameId} {history : History} {o : Outcome}
    (h : i.Recounts t f history o j) :
    ∃ fuel, (Task.evaluate t f).perform fuel i = some (o.mapError .eval, j) := by
  obtain ⟨fuel, hrun⟩ := h.returns
  exact ⟨fuel, Option.map_eq_some_iff.mpr ⟨(o, j), hrun, rfl⟩⟩

/-- A task that ends has a history, and one that has a history ends. -/
theorem exists_perform_iff :
    (∃ fuel, task.perform fuel i = some (r, j)) ↔ ∃ history, i.Performs task history r j := by
  constructor
  · rintro ⟨fuel, h⟩
    cases task with
    | evaluate t f =>
      obtain ⟨history, o, hrun, rfl⟩ := exists_recounts_of_perform h
      exact ⟨history, .evaluate hrun⟩
    | run source =>
      cases hp : Document.parseProgram source with
      | ok p =>
        rw [perform_run_of_ok hp] at h
        obtain ⟨history, o, hrun, rfl⟩ := exists_recounts_of_perform h
        exact ⟨history, .run hp hrun⟩
      | error e =>
        rw [perform_run_of_error hp] at h
        cases h
        exact ⟨[], .undecoded hp⟩
  · rintro ⟨history, h⟩
    cases h with
    | evaluate h => exact h.exists_perform
    | run hp h =>
      obtain ⟨fuel, hrun⟩ := h.exists_perform
      exact ⟨fuel, (perform_run_of_ok hp).trans hrun⟩
    | undecoded hp => exact ⟨0, perform_run_of_error hp⟩

/-- A printer takes exactly the text of the history. -/
theorem Performs.printer_eq {history : History} (h : i.Performs task history r j) :
    j.state.printer = i.state.printer.receive history.text := by
  cases h with
  | evaluate h | run _ h => exact h.printer_eq
  | undecoded _ => exact i.state.printer.receive_empty.symm

/-- No task has two ends. -/
theorem Performs.unique {history history' : History} {r' : Except RunFailure Value}
    {j' : Interpreter} (h : i.Performs task history r j) (h' : i.Performs task history' r' j') :
    r' = r ∧ j' = j := by
  cases h with
  | evaluate h =>
    cases h' with
    | evaluate h' =>
      obtain ⟨rfl, rfl⟩ := h.returns.unique h'.returns
      exact ⟨rfl, rfl⟩
  | run hp h =>
    cases h' with
    | run hp' h' =>
      cases hp.symm.trans hp'
      obtain ⟨rfl, rfl⟩ := h.returns.unique h'.returns
      exact ⟨rfl, rfl⟩
    | undecoded hp' => cases hp.symm.trans hp'
  | undecoded hp =>
    cases h' with
    | run hp' _ => cases hp.symm.trans hp'
    | undecoded hp' =>
      cases hp.symm.trans hp'
      exact ⟨rfl, rfl⟩

end Interpreter

end TreeScript

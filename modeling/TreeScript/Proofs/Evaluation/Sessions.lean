import Mathlib
import TreeScript.Proofs.Evaluation.BigStep
import TreeScript.Proofs.Evaluation.Observers

/-!
Sessions: an interpreter that does one task after another, while its host changes frames and
printed text in between. Main statement: between tasks no call is in progress, so every task goes
as it would in a new interpreter on the same frames, whatever failed before.
-/
namespace TreeScript

namespace Interpreter

/-- What an interpreter becomes that was new under the limit. -/
inductive Session (limit : Option Nat) : Interpreter → Prop where
  | new (sink : Sink) (profile : Bool) : Session limit (.new limit sink profile)
  | task {i j : Interpreter} {task : Task} {fuel : Nat} {r : Except RunFailure Value} :
      Session limit i → task.perform fuel i = some (r, j) → Session limit j
  /-- Between tasks the host may change frames and printed text as it likes. -/
  | host {i : Interpreter} (store : Store) (printer : Printer) :
      Session limit i → Session limit ⟨i.root, ⟨store, printer, i.state.stack, i.state.counters⟩⟩

/-- The interpreter with another root, on other frames. -/
def onFrames (i : Interpreter) (root : FrameId) (store : Store) : Interpreter :=
  ⟨root, { i.state with store }⟩

variable {i j : Interpreter}

theorem Returns.stack_eq {t : Term} {f : FrameId} {r : Outcome} (h : i.Returns t f r j) :
    j.state.stack = i.state.stack := by
  obtain ⟨-, hy⟩ := returns_iff_yields.mp h
  exact (Evaluation.yields_iff_evaluates.mp hy).stack_eq

theorem stack_of_perform {task : Task} {fuel : Nat} {r : Except RunFailure Value}
    (h : task.perform fuel i = some (r, j)) : j.state.stack = i.state.stack := by
  obtain ⟨history, hrun⟩ := exists_perform_iff.mp ⟨fuel, h⟩
  cases hrun with
  | evaluate hrun | run _ hrun => exact hrun.returns.stack_eq
  | undecoded _ => rfl

theorem Session.stack_eq {limit : Option Nat} (h : Session limit i) :
    i.state.stack = .empty limit := by
  induction h with
  | new sink profile => rfl
  | task _ hrun ih => exact (stack_of_perform hrun).trans ih
  | host _ _ _ ih => exact ih

theorem Session.alike_new {limit : Option Nat} (h : Session limit i) (sink : Sink)
    (profile : Bool) :
    i.Alike ((Interpreter.new limit sink profile).onFrames i.root i.state.store) :=
  ⟨rfl, rfl, h.stack_eq.symm⟩

end Interpreter

open Interpreter (Session)

/-- An evaluation leaves the calls in progress as they were, however it ends. So in a session
there are none between tasks, and every task ends as in a new interpreter with the same limit on
the same frames: with the same result, the same frames and the same printed text. -/
theorem calls_balanced :
    (∀ (i j : Interpreter) (t : Term) (f : FrameId) (r : Outcome), i.Returns t f r j →
      j.state.stack = i.state.stack) ∧
    ∀ (limit : Option Nat) (i : Interpreter), Session limit i →
      i.callDepth = 0 ∧ i.state.stack = .empty limit ∧
      ∀ (sink : Sink) (profile : Bool) (task : Task) (fuel : Nat),
        Option.Rel
          (i.EndsAlike ((Interpreter.new limit sink profile).onFrames i.root i.state.store) task)
          (task.perform fuel i)
          (task.perform fuel
            ((Interpreter.new limit sink profile).onFrames i.root i.state.store)) := by
  refine ⟨fun _ _ _ _ _ h => h.stack_eq, ?_⟩
  intro limit i h
  have hstack : i.state.stack = .empty limit := h.stack_eq
  refine ⟨?_, hstack, fun sink profile => (h.alike_new sink profile).perform⟩
  rw [Interpreter.callDepth, hstack]
  rfl

/-- A program that calls a function which does nothing but call itself. -/
def runaway : Term :=
  .binding ⟨"f", .unstated⟩ (.function [] (.call (.var "f" .unstated) [] .unstated) .unstated)
    (.call (.var "f" .unstated) [] .unstated) .unstated

theorem calls_balanced_runaway :
    ∃ e j, (Interpreter.new (some 1) .buffer false).Returns runaway ⟨0⟩ (.error e) j ∧
      e.cause = .stackOverflow 1 ∧
      j.state.stack = (Interpreter.new (some 1) .buffer false).state.stack ∧ j.callDepth = 0 ∧
      Option.Rel
        (j.EndsAlike ((Interpreter.new (some 1) .silent true).onFrames j.root j.state.store)
          (.evaluate (.call (.var "f" .unstated) [] .unstated) ⟨0⟩))
        ((Task.evaluate (.call (.var "f" .unstated) [] .unstated) ⟨0⟩).perform 30 j)
        ((Task.evaluate (.call (.var "f" .unstated) [] .unstated) ⟨0⟩).perform 30
          ((Interpreter.new (some 1) .silent true).onFrames j.root j.state.store)) := by
  have hrun : ((Interpreter.new (some 1) .buffer false).evaluate 30 runaway ⟨0⟩).map Prod.fst =
      some (.error ⟨.stackOverflow 1, "maximum call depth of 1 exceeded", some .unstated,
        some ⟨[⟨"f", .unstated⟩]⟩, []⟩) := by
    cbv
  obtain ⟨⟨r, j⟩, hj, rfl⟩ := Option.map_eq_some_iff.mp hrun
  have hreturns : (Interpreter.new (some 1) .buffer false).Returns runaway ⟨0⟩ _ j := ⟨30, hj⟩
  have hperform : ∃ failure, (Task.evaluate runaway ⟨0⟩).perform 30
      (Interpreter.new (some 1) .buffer false) = some (.error failure, j) := by
    rw [Task.perform, hj]
    exact ⟨_, rfl⟩
  obtain ⟨failure, hperform⟩ := hperform
  have hsession : Session (some 1) j := .task (.new .buffer false) hperform
  obtain ⟨hdepth, -, hfresh⟩ := calls_balanced.2 (some 1) j hsession
  exact ⟨_, j, hreturns, rfl, calls_balanced.1 _ _ _ _ _ hreturns, hdepth, hfresh .silent true _ 30⟩

end TreeScript

import Mathlib
import TreeScript.Proofs.Evaluation.FailurePoint

/-!
The backtrace of a failure. Main statement: it lists the calls whose bodies the failing node
stands in, innermost first, and there is none if the node stands in no body.
-/
namespace TreeScript

namespace Evaluation

theorem Raises.backtrace_eq_none {q : Request} {s : State} {e : Failure} (h : Raises q s e) :
    e.backtrace = none := by
  cases h with
  | operation _ _ hop => rcases Operator.apply_eq_error hop with ⟨rfl, -⟩ | rfl <;> rfl
  | _ => rfl

/-- With no other calls in progress, a failure is given exactly the calls whose bodies it
happened in. -/
theorem FailsAt.backtrace_eq {q p : Request} {s w u : State} {calls : List Call} {e d : Failure}
    (h : FailsAt q s calls p w d) (hs : s.stack.calls = #[])
    (he : Evaluates q.term q.frame s (.error e) u) :
    e.backtrace = if calls = [] then none else some ⟨calls⟩ := by
  have hnone : d.backtrace = none := h.2.backtrace_eq_none
  have hstack := h.1.stack_eq
  by_cases hcalls : calls = []
  · subst hcalls
    have hdepth : w.stack.depth = 0 := by simp [hstack, CallStack.depth, hs]
    rw [if_pos rfl]
    rcases h.error he with rfl | ⟨-, rfl⟩
    · rw [CallStack.attach_of_depth_zero hdepth, hnone]
    · exact hnone
  · obtain ⟨inner, rest, rfl⟩ := List.exists_cons_of_ne_nil hcalls
    have hdepth : 0 < w.stack.depth := by simp [hstack]
    have hcapture : w.stack.capture = ⟨inner :: rest⟩ := by
      rw [hstack, CallStack.capture_enterAll]
      simp [CallStack.capture, hs]
    rw [if_neg hcalls]
    rcases h.error he with rfl | ⟨hnil, -⟩
    · rw [CallStack.attach_of_depth_pos hdepth hnone, hcapture]
      rfl
    · exact absurd hnil hcalls

end Evaluation

open Evaluation

/-- A failing evaluation that starts with no calls in progress fails at a node, and wherever it
fails, its backtrace lists the calls whose bodies the node stands in, innermost first; it has
none exactly if there are no such calls. -/
theorem backtrace_lists_open_bodies (i j : Interpreter) (t : Term) (f : FrameId) (e : Failure)
    (hempty : i.state.stack.calls = #[]) (h : i.Returns t f (.error e) j) :
    (∃ calls p w d, FailsAt ⟨t, f⟩ i.state calls p w d) ∧
      ∀ calls p w d, FailsAt ⟨t, f⟩ i.state calls p w d →
        e.backtrace = if calls = [] then none else some ⟨calls⟩ := by
  obtain ⟨-, hy⟩ := Interpreter.returns_iff_yields.mp h
  have hevaluates := yields_iff_evaluates.mp hy
  refine ⟨hevaluates.fails e rfl, ?_⟩
  intro calls p w d hfails
  exact hfails.backtrace_eq hempty hevaluates

/-- A named function that fails, called in the body of a function without a name with the
result of a third call. -/
def failingInside : Term :=
  .binding ⟨"g", .unstated⟩
    (.function [⟨"x", .unstated⟩] (.first (.var "x" .unstated) .unstated) .unstated)
    (.call (.function [⟨"y", .unstated⟩]
        (.call (.var "g" .unstated) [.var "y" .unstated] .unstated) .unstated)
      [.call (.function [] (.int 5 .unstated) .unstated) [] .unstated] .unstated) .unstated

theorem backtrace_lists_open_bodies_failingInside :
    ∃ e j calls p w d, (Interpreter.new none .silent false).Returns failingInside ⟨0⟩ (.error e) j ∧
      FailsAt ⟨failingInside, ⟨0⟩⟩ (Interpreter.new none .silent false).state calls p w d ∧
      e.backtrace = some ⟨calls⟩ ∧ calls = [⟨"g", .unstated⟩, ⟨"<anonymous>", .unstated⟩] := by
  have hrun : ((Interpreter.new none .silent false).evaluate 60 failingInside ⟨0⟩).map Prod.fst =
      some (.error ⟨.typeMismatch .tuple .int, "`int` is not a tuple", some .unstated,
        some ⟨[⟨"g", .unstated⟩, ⟨"<anonymous>", .unstated⟩]⟩, []⟩) := by
    cbv
  obtain ⟨⟨r, j⟩, hj, rfl⟩ := Option.map_eq_some_iff.mp hrun
  obtain ⟨⟨calls, p, w, d, hfails⟩, hall⟩ :=
    backtrace_lists_open_bodies _ j failingInside ⟨0⟩ _ rfl ⟨60, hj⟩
  have hcalls := hall calls p w d hfails
  by_cases hnil : calls = []
  · rw [if_pos hnil] at hcalls
    cases hcalls
  · rw [if_neg hnil, Option.some.injEq, Backtrace.mk.injEq] at hcalls
    exact ⟨_, j, calls, p, w, d, ⟨60, hj⟩, hfails, congrArg _ (congrArg _ hcalls), hcalls.symm⟩

end TreeScript

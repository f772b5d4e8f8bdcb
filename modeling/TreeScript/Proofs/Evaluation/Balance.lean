import TreeScript.Proofs.Evaluation.Rules

/-!
The calls in progress. Every call that an evaluation enters it leaves again, however it
ends, so the calls in progress after it are those before it.
-/
namespace TreeScript

@[simp] theorem CallStack.pop_enter (s : CallStack) (c : Call) : (s.enter c).pop = s := by
  simp [enter, pop]

namespace Evaluation

@[simp] theorem State.stack_visit (s : State) : s.visit.stack = s.stack := rfl

@[simp] theorem State.stack_called (s : State) (c : Closure) (arguments : List Value)
    (call : Call) : (s.called c arguments call).stack = s.stack.enter call := rfl

@[simp] theorem State.stack_leave (s : State) : s.leave.stack = s.stack.pop := rfl

/-- An evaluation ends with the calls in progress that it began with. -/
theorem Evaluates.stack_eq {t : Term} {f : FrameId} {s u : State} {r : Outcome}
    (h : Evaluates t f s r u) : u.stack = s.stack := by
  induction h using @Evaluates.rec _ fun _ _ s _ u _ => u.stack = s.stack with
  | int | str | bool | var | undefined | function | nil => rfl
  | boundFails _ ihe | conditionFails _ ihe | lhsFails _ ihe | leftFails _ ihe
  | printedFails _ ihe | firstFails _ ihe | secondFails _ ihe | calleeFails _ ihe
  | headFails _ ihe => exact ihe
  | print _ ihv | first _ ihv | firstOfOther _ _ ihv | second _ ihv | secondOfOther _ _ ihv
  | notCallable _ _ ihv => exact ihv
  | binding _ _ _ ihv ihr | consequent _ _ _ ihv ihr | alternative _ _ _ ihv ihr =>
    exact ihr.trans ihv
  | binary _ _ _ iha ihb | dividesByZero _ _ _ iha ihb | misfits _ _ _ iha ihb
  | tuple _ _ iha ihb => exact ihb.trans iha
  | rhsFails _ _ iha ihe | rightFails _ _ iha ihe => exact ihe.trans iha
  | argumentFails _ _ ihc ihe => exact ihe.trans ihc
  | wrongArity _ _ _ ihc ihvs | refused _ _ _ _ _ ihc ihvs => exact ihvs.trans ihc
  | call _ _ _ _ _ _ _ ihc ihvs _ | bodyFails _ _ _ _ _ _ _ ihc ihvs _ => exact ihvs.trans ihc
  | cons _ _ ihv ihvs | tailFails _ _ ihv ihvs => exact ihvs.trans ihv

theorem EvaluatesAll.stack_eq {ts : List Term} {f : FrameId} {s u : State}
    {rs : Except Failure (List Value)} (h : EvaluatesAll ts f s rs u) : u.stack = s.stack := by
  induction ts generalizing s rs with
  | nil =>
    cases h
    rfl
  | cons t ts ih =>
    cases h with
    | cons hv hvs => exact (ih hvs).trans hv.stack_eq
    | headFails he => exact he.stack_eq
    | tailFails hv he => exact (ih he).trans hv.stack_eq

end Evaluation

end TreeScript

import Mathlib.Logic.Relation
import TreeScript.Proofs.Evaluation.Calls

/-!
The elementary steps of an evaluation: all that a node can do to a state. Main statement: a
run passes only through states that such steps reach, so what every step keeps, every run
keeps at every moment.
-/
namespace TreeScript.Evaluation

/-- A single change of state. A call is entered only below the limit. -/
inductive Step : State → State → Prop where
  | visit (s : State) : Step s s.visit
  | bind (s : State) (f : FrameId) (name : String) (v : Value) : Step s (s.bind f name v)
  | print (s : State) (v : Value) : Step s (s.print v)
  | newClosure (s : State) (parameters : List Parameter) (body : Term) (f : FrameId)
      (l : Location) : Step s (s.newClosure parameters body f l).2
  | enter (s : State) (c : Closure) (arguments : List Value) (call : Call) :
      arguments.length = c.arity → s.stack.exhausted? = none →
      Step s (s.called c arguments call)
  | leave (s : State) : Step s s.leave

abbrev Steps : State → State → Prop := Relation.ReflTransGen Step

theorem Step.steps {s t : State} (h : Step s t) : Steps s t := .single h

theorem ascends_enterCall (c : Closure) (arguments : List Value) (call : Call) (s : State) :
    (enterCall c arguments call s).Ascends Steps s := by
  apply enterCall_cases
  · intro _
    exact .refl
  · intro _ _ _
    exact .refl
  · intro h hroom
    refine ⟨(Step.enter s c arguments call h hroom).steps, ?_⟩
    intro r u _
    rw [leaveCall_eq]
    exact (Step.leave u).steps

/-- A node does nothing to a state but elementary steps, in between its children. -/
theorem ascends_body (q : Request) (s : State) : (body q s).Ascends Steps s := by
  obtain ⟨term, f⟩ := q
  have hrefl : ∀ s : State, Steps s s := fun _ => .refl
  have hvisit : Steps s s.visit := (Step.visit s).steps
  cases term with
  | int | str | bool => exact hvisit
  | var name l =>
    cases h : s.store.lookup f name with
    | some v =>
      simp only [body, State.visit, h]
      exact hvisit
    | none =>
      simp only [body, State.visit, h]
      exact hvisit
  | function parameters functionBody l =>
    exact hvisit.tail (.newClosure s.visit parameters functionBody f l)
  | binding name bound next l =>
    exact Plan.ascends_ask hrefl hvisit fun v t _ => (Step.bind t f name.text v).steps
  | conditional condition consequent alternative l =>
    exact Plan.ascends_ask hrefl hvisit fun v t _ => hrefl t
  | binary op lhs rhs l =>
    refine Plan.ascends_ask hrefl hvisit fun a t _ => ?_
    refine Plan.ascends_ask hrefl (hrefl t) fun b u _ => ?_
    cases op.apply a b with
    | ok v => exact hrefl u
    | error e => exact hrefl u
  | print printed l => exact Plan.ascends_ask hrefl hvisit fun v t _ => (Step.print t v).steps
  | tuple left right l =>
    refine Plan.ascends_ask hrefl hvisit fun a t _ => ?_
    exact Plan.ascends_ask hrefl (hrefl t) fun b u _ => hrefl u
  | first pair l =>
    refine Plan.ascends_ask hrefl hvisit fun v t _ => ?_
    cases v <;> exact hrefl t
  | second pair l =>
    refine Plan.ascends_ask hrefl hvisit fun v t _ => ?_
    cases v <;> exact hrefl t
  | call callee arguments l =>
    refine Plan.ascends_ask hrefl hvisit fun v t _ => ?_
    cases v with
    | closure c => exact Plan.ascends_askAll hrefl fun vs u => ascends_enterCall c vs _ u
    | _ => exact hrefl t

theorem steps_of_ascends {p : EvalPlan} {s u : State} {r : Outcome} (hp : p.Ascends Steps s)
    (h : Plan.Yields body p r u) : Steps s u :=
  h.ascends .trans ascends_body hp

/-- The state an evaluation leaves is reached by elementary steps. -/
theorem steps_of_yields {q : Request} {s u : State} {r : Outcome}
    (h : Plan.Yields body (body q s) r u) : Steps s u :=
  steps_of_ascends (ascends_body q s) h

/-- So is every state on the way. -/
theorem steps_of_advance {q : Request} {s : State} {fuel : Nat}
    {c : Plan.Config State Request Outcome}
    (h : Plan.advance body fuel (Plan.start q s) = .unfinished c) : Steps s c.plan.state :=
  Plan.ascends_of_advance .trans ascends_body h .refl (by simp)

/-- What every step keeps, every run keeps. -/
theorem Steps.keep {I : State → Prop} (hI : ∀ s t, Step s t → I s → I t) {s u : State}
    (h : Steps s u) (hs : I s) : I u := by
  induction h with
  | refl => exact hs
  | tail _ hstep ih => exact hI _ _ hstep ih

end TreeScript.Evaluation

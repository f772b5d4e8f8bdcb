import TreeScript.Proofs.Call.Locations
import TreeScript.Proofs.Evaluation.Output
import TreeScript.Proofs.Plan.Parallel
import TreeScript.Proofs.Value.Related

/-!
Two evaluations side by side. A coupling relates closures, frames and states of two runs, whose
terms differ in their locations at most. Main statement: where each single step keeps two states
related, two evaluations that start in related frames and states end together, with related
answers, having printed the same.
-/
namespace TreeScript.Evaluation

open Checks (Agree)

@[simp] theorem calleeName_mapLocations (φ : Location → Location) (t : Term) :
    calleeName (t.mapLocations φ) = calleeName t := by
  cases t <;> rfl

structure Coupling where
  /-- Where the second run has a location of the first. -/
  place : Location → Location
  /-- What the first run may evaluate. -/
  permits : Term → Prop
  closures : Closure → Closure → Prop
  /-- Which frame of the second run stands for a frame of the first. -/
  same : FrameId → FrameId → Prop
  states : State → State → Prop
  child : ∀ {t c}, permits t → c ∈ t.children → permits c
  code : ∀ {c c'}, closures c c' → permits c.body ∧ c'.body = c.body.mapLocations place ∧
    c'.arity = c.arity ∧ c'.location = place c.location
  stack : ∀ {s s'}, states s s' → s'.stack = s.stack.mapLocations place
  visit : ∀ {s s'}, states s s' → states s.visit s'.visit
  print : ∀ {s s' v v'}, states s s' → v.Related closures v' → states (s.print v) (s'.print v')
  lookup : ∀ {s s' f f' name l}, permits (.var name l) → states s s' → same f f' →
    Option.Rel (Value.Related closures) (s.store.lookup f name) (s'.store.lookup f' name)
  bind : ∀ {s s' f f' v v'}, states s s' → same f f' → v.Related closures v' → ∀ name,
    states (s.bind f name v) (s'.bind f' name v')
  make : ∀ {s s' f f' parameters body l}, permits (.function parameters body l) → states s s' →
    same f f' →
    closures ⟨s.store.closures, parameters, body, f, l⟩
      ⟨s'.store.closures, parameters.map (Parameter.mapLocations place), body.mapLocations place,
        f', place l⟩ ∧
    states (s.newClosure parameters body f l).2
      (s'.newClosure (parameters.map (Parameter.mapLocations place)) (body.mapLocations place) f'
        (place l)).2
  frames : ∀ {s s'}, states s s' → same ⟨s.store.frames.size⟩ ⟨s'.store.frames.size⟩
  enter : ∀ {s s' c c' vs vs'}, states s s' → closures c c' →
    List.Forall₂ (Value.Related closures) vs vs' → ∀ call,
    states (s.called c vs call) (s'.called c' vs' (call.mapLocations place))
  leave : ∀ {s s'}, states s s' → states s.leave s'.leave

namespace Coupling
variable (C : Coupling) {s s' : State} {f f' : FrameId}

/-- The same node in both runs, in frames that are related. -/
structure Requests (q q' : Request) : Prop where
  permitted : C.permits q.term
  term : q'.term = q.term.mapLocations C.place
  frame : C.same q.frame q'.frame

abbrev Answers : Outcome → Outcome → Prop :=
  Agree (fun e e' => e' = e.mapLocations C.place) (Value.Related C.closures)

abbrev SameHistory : History → History → Prop := Plan.SameHistory C.Requests C.Answers

abbrev InStep : EvalPlan → EvalPlan → Prop := Plan.Parallel C.Requests C.states C.Answers

variable {C}

theorem requests_of_permits {t : Term} (ht : C.permits t) (hf : C.same f f') :
    C.Requests ⟨t, f⟩ ⟨t.mapLocations C.place, f'⟩ := ⟨ht, rfl, hf⟩

theorem inStep_value {v v' : Value} (hs : C.states s s') (hv : v.Related C.closures v') :
    C.InStep (value v s) (value v' s') := .answer (.ok hv) hs

theorem inStep_fail (cause : Failure.Cause) (l : Location) (hs : C.states s s') :
    C.InStep (fail cause l s) (fail cause (C.place l) s') := .answer (.error rfl) hs

theorem inStep_ask {c : Term} {k k' : Value → State → EvalPlan} (hc : C.permits c)
    (hf : C.same f f') (hs : C.states s s')
    (hk : ∀ v v' t t', v.Related C.closures v' → C.states t t' → C.InStep (k v t) (k' v' t')) :
    C.InStep (.ask ⟨c, f⟩ s k) (.ask ⟨c.mapLocations C.place, f'⟩ s' k') :=
  Plan.parallel_ask (requests_of_permits hc hf) hs hk

theorem inStep_apply {a a' b b' : Value} (op : Operator) (l : Location)
    (ha : a.Related C.closures a') (hb : b.Related C.closures b') (hs : C.states s s') :
    C.InStep
      (match op.apply a b with
        | .ok v => value v s
        | .error e => .answer (.error (e.located l)) s)
      (match op.apply a' b' with
        | .ok v => value v s'
        | .error e => .answer (.error (e.located (C.place l))) s') := by
  rw [op.apply_eq ha hb]
  have hresults := op.results_apply a' b'
  cases h : op.apply a' b' with
  | ok v =>
    rw [h] at hresults
    exact inStep_value hs (.of_kind hresults)
  | error e =>
    -- Failures of operators have no locations before they get the one of the node.
    have hplain : e.mapLocations C.place = e := by
      rcases Operator.apply_eq_error h with ⟨rfl, -⟩ | rfl <;> rfl
    refine .answer (.error ?_) hs
    rw [Failure.mapLocations_located, hplain]

theorem inStep_leaveCall {r r' : Outcome} (hr : C.Answers r r') (hs : C.states s s') :
    C.InStep (leaveCall r s) (leaveCall r' s') := by
  rw [leaveCall_eq, leaveCall_eq]
  refine .answer ?_ (C.leave hs)
  cases hr with
  | ok hv => exact .ok hv
  | error he =>
    refine .error ?_
    rw [he, C.stack hs, CallStack.attach_mapLocations]

theorem inStep_enterCall {c c' : Closure} {vs vs' : List Value} (hs : C.states s s')
    (hc : C.closures c c') (hvs : List.Forall₂ (Value.Related C.closures) vs vs') (call : Call) :
    C.InStep (enterCall c vs call s) (enterCall c' vs' (call.mapLocations C.place) s') := by
  obtain ⟨hbody, hcode, harity, hlocation⟩ := C.code hc
  have hlength : vs'.length = vs.length := hvs.length_eq.symm
  have hroom : s'.stack.exhausted? = s.stack.exhausted? := by
    rw [C.stack hs, CallStack.exhausted?_mapLocations]
  refine enterCall_cases
    (P := fun p => C.InStep p (enterCall c' vs' (call.mapLocations C.place) s'))
    c vs call s ?_ ?_ ?_
  · intro h
    rw [enterCall_of_arity c' vs' _ s' (by rwa [hlength, harity])]
    refine .answer (.error ?_) hs
    simp [Failure.wrongArity, Failure.Note.mapLocations, Call.mapLocations, harity, hlength,
      hlocation]
  · intro limit h hlimit
    rw [enterCall_of_exhausted c' vs' _ s' (by rw [hlength, harity, h]) (hroom.trans hlimit)]
    refine .answer (.error ?_) hs
    rw [C.stack hs, ← CallStack.attach_mapLocations]
    rfl
  · intro h hfree
    rw [enterCall_of_room c' vs' _ s' (by rw [hlength, harity, h]) (hroom.trans hfree)]
    exact .call ⟨hbody, hcode, C.frames hs⟩ (C.enter hs hc hvs call)
      fun r r' t t' hr ht => inStep_leaveCall hr ht

/-- Nodes that are the same but for their locations do the same in related states. -/
theorem inStep_body {q q' : Request} (hq : C.Requests q q') (hs : C.states s s') :
    C.InStep (body q s) (body q' s') := by
  obtain ⟨term, f⟩ := q
  obtain ⟨_, f'⟩ := q'
  obtain ⟨hterm, rfl, hf⟩ := hq
  have hchild : ∀ {c}, c ∈ term.children → C.permits c := C.child hterm
  have hvisit := C.visit hs
  cases term with
  | int n l => exact inStep_value hvisit (.int n)
  | str text l => exact inStep_value hvisit (.str text)
  | bool b l => exact inStep_value hvisit (.bool b)
  | var name l =>
    have hlookup := C.lookup hterm hvisit hf
    dsimp only [body, Term.mapLocations]
    generalize s.visit.store.lookup f name = v at hlookup ⊢
    generalize s'.visit.store.lookup f' name = v' at hlookup ⊢
    cases hlookup with
    | some hv => exact inStep_value hvisit hv
    | none => exact inStep_fail _ l hvisit
  | function parameters functionBody l =>
    obtain ⟨hclosure, hstates⟩ := C.make hterm hvisit hf
    exact inStep_value hstates (.closure hclosure)
  | binding name bound next l =>
    refine inStep_ask (hchild (by simp [Term.children])) hf hvisit fun v v' t t' hv ht => ?_
    have hnext : C.permits next := hchild (by simp [Term.children])
    exact .jump (requests_of_permits hnext hf) (C.bind ht hf hv name.text)
  | conditional condition consequent alternative l =>
    refine inStep_ask (hchild (by simp [Term.children])) hf hvisit fun v v' t t' hv ht => ?_
    rw [hv.isTruthy_eq]
    refine .jump ?_ ht
    cases v'.isTruthy with
    | true => exact requests_of_permits (hchild (by simp [Term.children])) hf
    | false => exact requests_of_permits (hchild (by simp [Term.children])) hf
  | binary op lhs rhs l =>
    refine inStep_ask (hchild (by simp [Term.children])) hf hvisit fun a a' t t' ha ht => ?_
    refine inStep_ask (hchild (by simp [Term.children])) hf ht fun b b' u u' hb hu => ?_
    exact inStep_apply op l ha hb hu
  | print printed l =>
    refine inStep_ask (hchild (by simp [Term.children])) hf hvisit fun v v' t t' hv ht => ?_
    exact inStep_value (C.print ht hv) hv
  | tuple left right l =>
    refine inStep_ask (hchild (by simp [Term.children])) hf hvisit fun a a' t t' ha ht => ?_
    refine inStep_ask (hchild (by simp [Term.children])) hf ht fun b b' u u' hb hu => ?_
    exact inStep_value hu (.tuple ha hb)
  | first pair l =>
    refine inStep_ask (hchild (by simp [Term.children])) hf hvisit fun v v' t t' hv ht => ?_
    cases hv with
    | tuple ha hb => exact inStep_value ht ha
    | _ => exact inStep_fail _ l ht
  | second pair l =>
    refine inStep_ask (hchild (by simp [Term.children])) hf hvisit fun v v' t t' hv ht => ?_
    cases hv with
    | tuple ha hb => exact inStep_value ht hb
    | _ => exact inStep_fail _ l ht
  | call callee arguments l =>
    refine inStep_ask (hchild (by simp [Term.children])) hf hvisit fun v v' t t' hv ht => ?_
    cases hv with
    | closure hc =>
      have harguments : List.Forall₂ C.Requests (arguments.map fun t => ⟨t, f⟩)
          ((Term.mapLocationsAll C.place arguments).map fun t => ⟨t, f'⟩) := by
        rw [Term.mapLocationsAll_eq_map, List.map_map, List.forall₂_map_left_iff,
          List.forall₂_map_right_iff, List.forall₂_same]
        exact fun t ht => requests_of_permits (hchild (List.mem_cons_of_mem callee ht)) hf
      refine Plan.parallel_askAll harguments ht .nil fun vs vs' u u' hvs hu => ?_
      have hcall : Call.mapLocations C.place ⟨calleeName callee, l⟩ =
          ⟨calleeName (callee.mapLocations C.place), C.place l⟩ := by
        simp [Call.mapLocations]
      exact hcall ▸ inStep_enterCall hu hc hvs ⟨calleeName callee, l⟩
    | _ => exact inStep_fail _ l ht

theorem line_eq {q q' : Request} {r r' : Outcome} (hq : C.Requests q q') (hr : C.Answers r r') :
    q'.line r' = q.line r := by
  obtain ⟨term, f⟩ := q
  obtain ⟨_, f'⟩ := q'
  obtain ⟨-, rfl, -⟩ := hq
  cases hr with
  | error _ => cases term <;> rfl
  | ok hv =>
    cases term with
    | print => exact congrArg (· ++ "\n") hv.display_eq.symm
    | _ => rfl

theorem text_eq {history history' : History} (h : C.SameHistory history history') :
    history'.text = history.text := by
  induction h with
  | nil => rfl
  | cons hx _ ih => rw [History.text, History.text, line_eq hx.1 hx.2, ih]

variable {i i' j j' : Interpreter} {t : Term} {r r' : Outcome}

/-- Two ends of coupled evaluations. -/
structure Ends (C : Coupling) (x x' : Outcome × Interpreter) : Prop where
  answer : C.Answers x.1 x'.1
  state : C.states x.2.state x'.2.state

section Runs
variable (ht : C.permits t) (hs : C.states i.state i'.state)
include ht hs

/-- With the same fuel both evaluations come to an end, or neither does. -/
theorem rel_evaluate_of_same (hf : C.same f f') (fuel : Nat) :
    Option.Rel C.Ends (i.evaluate fuel t f) (i'.evaluate fuel (t.mapLocations C.place) f') := by
  obtain ⟨root, s⟩ := i
  obtain ⟨root', s'⟩ := i'
  have hq : C.Requests ⟨t, f⟩ ⟨t.mapLocations C.place, f'⟩ := requests_of_permits ht hf
  have hrun := Plan.parallel_run (fun _ _ _ _ => inStep_body) fuel hq hs
  dsimp only [Interpreter.evaluate]
  generalize Plan.run body fuel ⟨t, f⟩ s = x at hrun ⊢
  generalize Plan.run body fuel ⟨t.mapLocations C.place, f'⟩ s' = x' at hrun ⊢
  cases hrun with
  | some h => exact .some ⟨h.1, h.2⟩
  | none => exact .none

/-- Where the first evaluation ends, so does the second. -/
theorem recounts_of_same (hf : C.same f f') {history : History}
    (h : i.Recounts t f history r j) :
    ∃ history' r' j', i'.Recounts (t.mapLocations C.place) f' history' r' j' ∧
      C.SameHistory history history' ∧ C.Ends (r, j) (r', j') := by
  obtain ⟨-, hrun⟩ := h
  obtain ⟨history', r', u, hrun', hsame, hr, hu⟩ :=
    hrun.parallel (fun _ _ _ _ => inStep_body) (.jump (requests_of_permits ht hf) hs)
  exact ⟨history', r', ⟨i'.root, u⟩, ⟨rfl, hrun'⟩, hsame, hr, hu⟩

variable [Std.Refl C.same]

theorem rel_evaluate (fuel : Nat) :
    Option.Rel C.Ends (i.evaluate fuel t f) (i'.evaluate fuel (t.mapLocations C.place) f) :=
  rel_evaluate_of_same ht hs (Std.Refl.refl f) fuel

theorem recounts {history : History} (h : i.Recounts t f history r j) :
    ∃ history' r' j', i'.Recounts (t.mapLocations C.place) f history' r' j' ∧
      C.SameHistory history history' ∧ C.Ends (r, j) (r', j') :=
  recounts_of_same ht hs (Std.Refl.refl f) h

end Runs

end Coupling

end TreeScript.Evaluation

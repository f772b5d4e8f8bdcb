import TreeScript.Proofs.Evaluation.Steps
import TreeScript.Proofs.Operation

/-!
What elementary steps do to the limit on nested calls, to the depth of the calls in
progress, to the counters, to the deepest nesting counted and to the printed text. A failure for
the limit names the limit there is.
-/
namespace TreeScript

namespace Evaluation

/-- The deepest nesting of calls so far, if it is counted. -/
def State.deepest? (s : State) : Option Nat := s.counters.map Counters.maxDepth

/-- The same state under another limit. -/
def State.limited (limit : Option Nat) (s : State) : State :=
  { s with stack := { s.stack with limit := limit } }

theorem limit_of_step {s t : State} (h : Step s t) : t.stack.limit = s.stack.limit := by
  cases h <;> rfl

theorem limit_of_steps {s t : State} (h : Steps s t) : t.stack.limit = s.stack.limit :=
  h.keep (I := fun u => u.stack.limit = s.stack.limit)
    (fun _ _ hstep hu => (limit_of_step hstep).trans hu) rfl

theorem deepest?_visit (s : State) : s.visit.deepest? = s.deepest? := by
  cases h : s.counters with
  | none => simp [State.deepest?, State.visit, h]
  | some c => simp [State.deepest?, State.visit, h, Counters.countTerm]

theorem deepest?_called {s : State} {d : Nat} (h : s.deepest? = some d) (c : Closure)
    (arguments : List Value) (call : Call) :
    (s.called c arguments call).deepest? = some (max d (s.stack.depth + 1)) := by
  obtain ⟨n, hn, rfl⟩ := Option.map_eq_some_iff.mp h
  simp [State.deepest?, State.called, hn, Counters.countCall]

/-- Below a limit no step leads above it. -/
theorem depth_le_of_steps {m : Nat} {s t : State} (h : Steps s t)
    (hlimit : s.stack.limit = some m) (hdepth : s.stack.depth ≤ m) : t.stack.depth ≤ m := by
  refine (h.keep (I := fun u => u.stack.limit = some m ∧ u.stack.depth ≤ m) ?_
    ⟨hlimit, hdepth⟩).2
  intro u v hstep hI
  obtain ⟨hu, hle⟩ := hI
  refine ⟨(limit_of_step hstep).trans hu, ?_⟩
  cases hstep with
  | enter c arguments call _ hroom =>
    have hlt := CallStack.exhausted?_eq_none_iff.mp hroom m hu
    rw [State.called, CallStack.depth_enter]
    exact hlt
  | leave =>
    have hpop : (u.leave).stack.depth = u.stack.depth - 1 := CallStack.depth_pop u.stack
    omega
  | _ => exact hle

theorem deepest_le_of_steps {d : Nat} {s t : State} (h : Steps s t) (hs : s.deepest? = some d) :
    ∃ n, t.deepest? = some n ∧ d ≤ n := by
  refine h.keep (I := fun u => ∃ n, u.deepest? = some n ∧ d ≤ n) ?_ ⟨d, hs, Nat.le_refl d⟩
  intro u v hstep hI
  obtain ⟨n, hn, hle⟩ := hI
  cases hstep with
  | visit => exact ⟨n, (deepest?_visit u).trans hn, hle⟩
  | enter c arguments call _ _ =>
    exact ⟨_, deepest?_called hn c arguments call, Nat.le_trans hle (Nat.le_max_left ..)⟩
  | _ => exact ⟨n, hn, hle⟩

/-- What is printed stays printed. -/
theorem printed_of_steps {s t : State} (h : Steps s t) :
    ∃ text, t.printer.held = s.printer.held ++ text := by
  refine h.keep (I := fun u => ∃ text, u.printer.held = s.printer.held ++ text) ?_ ⟨"", by simp⟩
  intro u v hstep hI
  obtain ⟨text, htext⟩ := hI
  cases hstep with
  | print v =>
    cases hsink : u.printer.sink with
    | silent => exact ⟨text, by simpa [State.print, Printer.println, hsink] using htext⟩
    | _ =>
      refine ⟨text ++ (v.display ++ "\n"), ?_⟩
      simp [State.print, Printer.println, hsink, htext, String.append_assoc]
  | _ => exact ⟨text, htext⟩

theorem counted_of_step {s t : State} (h : Step s t) :
    t.counters.isSome = s.counters.isSome := by
  cases h with
  | visit => exact Option.isSome_map
  | enter => exact Option.isSome_map
  | _ => rfl

/-- Counting neither starts nor ends on the way. -/
theorem counted_of_steps {s t : State} (h : Steps s t) :
    t.counters.isSome = s.counters.isSome :=
  h.keep (I := fun u => u.counters.isSome = s.counters.isSome)
    (fun _ _ hstep hu => (counted_of_step hstep).trans hu) rfl

/-- A failure for the limit names the limit there is. -/
def NamesLimit (limit : Option Nat) (r : Outcome) : Prop :=
  ∀ e m, r = .error e → e.cause = .stackOverflow m → limit = some m

theorem NamesLimit.of_ok {limit : Option Nat} {v : Value} : NamesLimit limit (.ok v) := by
  rintro e m ⟨⟩

theorem NamesLimit.of_error {limit : Option Nat} {e : Failure}
    (h : ∀ m, e.cause = .stackOverflow m → limit = some m) : NamesLimit limit (.error e) := by
  rintro d m ⟨⟩ hcause
  exact h m hcause

def Honest (_ : Request) (s : State) (r : Outcome) (_ : State) : Prop :=
  NamesLimit s.stack.limit r

theorem honest_ask {limit : Option Nat} {q : Request} {s : State}
    {k : Value → State → EvalPlan} (hs : s.stack.limit = limit)
    (hk : ∀ v t, t.stack.limit = limit →
      (k v t).Ensures (Plan.Met body Honest) fun r _ => NamesLimit limit r) :
    (Plan.ask q s k).Ensures (Plan.Met body Honest) fun r _ => NamesLimit limit r := by
  apply Plan.ensures_ask
  · intro v t _ hy
    exact hk v t ((limit_of_steps (steps_of_yields hy)).trans hs)
  · intro e t he _
    exact hs ▸ he

theorem honest_askAll {limit : Option Nat} {ts : List Term} {f : FrameId} {s : State}
    {k : List Value → State → EvalPlan} (hs : s.stack.limit = limit)
    (hk : ∀ vs t, t.stack.limit = limit →
      (k vs t).Ensures (Plan.Met body Honest) fun r _ => NamesLimit limit r) :
    (Plan.askAll (ts.map fun t => ⟨t, f⟩) s [] k).Ensures (Plan.Met body Honest)
      fun r _ => NamesLimit limit r := by
  refine Plan.ensures_askAll (I := fun _ _ t => t.stack.limit = limit) hs ?_ ?_ ?_
  · intro head rest vs t v u ht _ hy
    exact (limit_of_steps (steps_of_yields hy)).trans ht
  · intro head rest vs t e u ht he _
    exact ht ▸ he
  · intro vs t ht
    exact hk vs.reverse t ht

theorem honest_enterCall (c : Closure) (arguments : List Value) (call : Call) (s : State) :
    (enterCall c arguments call s).Ensures (Plan.Met body Honest)
      fun r _ => NamesLimit s.stack.limit r := by
  apply enterCall_cases
  · intro _
    exact .of_error (by rintro m ⟨⟩)
  · intro limit _ hs
    refine .of_error fun m hm => ?_
    rw [CallStack.cause_attach] at hm
    cases hm
    exact (CallStack.exhausted?_eq_some_iff.mp hs).1
  · intro _ _
    apply Plan.ensures_call
    intro r u hr _
    rw [leaveCall_eq]
    cases r with
    | ok v => exact .of_ok
    | error e =>
      refine .of_error fun m hm => ?_
      rw [CallStack.cause_attach] at hm
      exact hr e m rfl hm

theorem honest_body (q : Request) (s : State) :
    (body q s).Ensures (Plan.Met body Honest) (Honest q s) := by
  obtain ⟨term, f⟩ := q
  cases term with
  | int | str | bool | function => exact .of_ok
  | var name l =>
    cases h : s.store.lookup f name with
    | some v =>
      simp only [body, State.visit, h]
      exact .of_ok
    | none =>
      simp only [body, State.visit, h]
      exact .of_error (by rintro m ⟨⟩)
  | binding name bound next l =>
    refine honest_ask rfl fun v t ht => ?_
    apply Plan.ensures_jump
    intro r u hr _
    exact ht ▸ hr
  | conditional condition consequent alternative l =>
    refine honest_ask rfl fun v t ht => ?_
    apply Plan.ensures_jump
    intro r u hr _
    exact ht ▸ hr
  | binary op lhs rhs l =>
    refine honest_ask rfl fun a t ht => honest_ask ht fun b u hu => ?_
    have hresults := op.results_apply a b
    cases h : op.apply a b with
    | ok v => exact .of_ok
    | error e =>
      rw [h] at hresults
      refine .of_error fun m hm => ?_
      rcases hresults with hcause | hcause <;> cases hcause.symm.trans hm
  | print printed l => exact honest_ask rfl fun v t ht => .of_ok
  | tuple left right l =>
    exact honest_ask rfl fun a t ht => honest_ask ht fun b u hu => .of_ok
  | first pair l =>
    refine honest_ask rfl fun v t ht => ?_
    cases v with
    | tuple a b => exact .of_ok
    | _ => exact .of_error (by rintro m ⟨⟩)
  | second pair l =>
    refine honest_ask rfl fun v t ht => ?_
    cases v with
    | tuple a b => exact .of_ok
    | _ => exact .of_error (by rintro m ⟨⟩)
  | call callee arguments l =>
    refine honest_ask rfl fun v t ht => ?_
    cases v with
    | closure c =>
      exact honest_askAll ht fun vs u hu => hu ▸ honest_enterCall c vs ⟨calleeName callee, l⟩ u
    | _ => exact .of_error (by rintro m ⟨⟩)

/-- An evaluation fails for a limit only under this limit. -/
theorem limit_of_stackOverflow {q : Request} {s u : State} {e : Failure} {m : Nat}
    (h : Plan.Yields body (body q s) (.error e) u) (he : e.cause = .stackOverflow m) :
    s.stack.limit = some m :=
  h.keeps honest_body e m rfl he

end Evaluation

end TreeScript

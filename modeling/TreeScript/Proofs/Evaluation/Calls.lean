import TreeScript.Interpreter
import TreeScript.Proofs.Plan.Logic

/-!
The call step. A call with evaluated arguments is refused for the number of its arguments,
refused for the limit on nested calls, or runs its body in a frame of its own; nothing
else can happen. Also what it means that an evaluation returns.
-/
namespace TreeScript

namespace CallStack

theorem exhausted?_eq_some_iff {s : CallStack} {limit : Nat} :
    s.exhausted? = some limit ↔ s.limit = some limit ∧ limit ≤ s.depth := by
  unfold exhausted?
  cases s.limit with
  | none => simp
  | some m =>
    by_cases h : m ≤ s.depth
    · simp only [h, ↓reduceIte, Option.some.injEq]
      constructor
      · rintro rfl
        exact ⟨rfl, h⟩
      · exact fun hm => hm.1
    · simp only [h, ↓reduceIte, reduceCtorEq, Option.some.injEq, false_iff, not_and]
      rintro rfl
      exact h

theorem exhausted?_eq_none_iff {s : CallStack} :
    s.exhausted? = none ↔ ∀ limit, s.limit = some limit → s.depth < limit := by
  unfold exhausted?
  cases s.limit with
  | none => simp
  | some m => simp

@[simp] theorem depth_enter (s : CallStack) (c : Call) : (s.enter c).depth = s.depth + 1 := by
  simp [enter, depth]

@[simp] theorem depth_pop (s : CallStack) : s.pop.depth = s.depth - 1 := by
  simp [pop, depth]

@[simp] theorem length_capture (s : CallStack) : s.capture.length = s.depth := by
  simp [capture, Backtrace.length, depth]

theorem attach_of_isSome {s : CallStack} {e : Failure} (h : e.backtrace.isSome = true) :
    s.attach e = e := by
  simp [attach, h]

theorem attach_of_depth_zero {s : CallStack} {e : Failure} (h : s.depth = 0) :
    s.attach e = e := by
  have hempty : s.isEmpty = true := Array.isEmpty_iff_size_eq_zero.mpr h
  simp [attach, hempty]

theorem attach_of_depth_pos {s : CallStack} {e : Failure} (h : 0 < s.depth)
    (he : e.backtrace = none) : s.attach e = e.withBacktrace s.capture := by
  have hempty : s.isEmpty = false := by
    rw [Bool.eq_false_iff]
    intro hs
    exact Nat.ne_of_gt h (Array.isEmpty_iff_size_eq_zero.mp hs)
  simp [attach, hempty, he]

/-- Attaching calls to a failure does not change what failed. -/
theorem cause_attach (s : CallStack) (e : Failure) : (s.attach e).cause = e.cause := by
  unfold attach
  split
  · rfl
  · rfl

end CallStack

namespace Evaluation

/-- The state in which the body of a call starts: one call more is in progress and
counted, and the youngest frame binds the parameters below the closure's own frame. -/
def State.called (s : State) (c : Closure) (arguments : List Value) (call : Call) : State where
  store := (s.store.newChild c.frame c.parameters arguments).2
  printer := s.printer
  stack := s.stack.enter call
  counters := s.counters.map fun n => n.countCall (s.stack.depth + 1)

theorem State.enter_eq (s : State) (c : Closure) (arguments : List Value) (call : Call) :
    s.enter c arguments call = (⟨s.store.frames.size⟩, s.called c arguments call) := by
  simp only [State.enter, State.called, Store.newChild, CallStack.depth_enter]

section Call
variable (c : Closure) (arguments : List Value) (call : Call) (s : State)

theorem enterCall_of_arity (h : arguments.length ≠ c.arity) :
    enterCall c arguments call s =
      .answer (.error ((Failure.wrongArity c arguments.length).located call.location)) s := by
  simp [enterCall, h]

theorem enterCall_of_exhausted {limit : Nat} (h : arguments.length = c.arity)
    (hs : s.stack.exhausted? = some limit) :
    enterCall c arguments call s = .answer (.error (s.stack.attach
      ((Failure.ofCause (.stackOverflow limit)).located call.location))) s := by
  simp [enterCall, h, hs]

theorem enterCall_of_room (h : arguments.length = c.arity) (hs : s.stack.exhausted? = none) :
    enterCall c arguments call s =
      .call ⟨c.body, ⟨s.store.frames.size⟩⟩ (s.called c arguments call) leaveCall := by
  simp [enterCall, h, hs, State.enter_eq]

/-- Whatever holds of both refusals and of the entered body holds of the call step. -/
theorem enterCall_cases {P : EvalPlan → Prop}
    (arity : arguments.length ≠ c.arity →
      P (.answer (.error ((Failure.wrongArity c arguments.length).located call.location)) s))
    (refused : ∀ limit, arguments.length = c.arity → s.stack.exhausted? = some limit →
      P (.answer (.error (s.stack.attach
        ((Failure.ofCause (.stackOverflow limit)).located call.location))) s))
    (entered : arguments.length = c.arity → s.stack.exhausted? = none →
      P (.call ⟨c.body, ⟨s.store.frames.size⟩⟩ (s.called c arguments call) leaveCall)) :
    P (enterCall c arguments call s) := by
  by_cases h : arguments.length = c.arity
  · cases hs : s.stack.exhausted? with
    | none => exact enterCall_of_room c arguments call s h hs ▸ entered h hs
    | some limit => exact enterCall_of_exhausted c arguments call s h hs ▸ refused limit h hs
  · exact enterCall_of_arity c arguments call s h ▸ arity h

end Call

/-- The failure a call hands on carries the calls in progress; its value is unchanged. -/
theorem leaveCall_eq (r : Outcome) (s : State) :
    leaveCall r s = .answer (r.mapError s.stack.attach) s.leave := by
  cases r <;> rfl

end Evaluation

namespace Interpreter

/-- Some fuel lets the evaluation of the term in the frame come to its end. -/
def Returns (i : Interpreter) (t : Term) (f : FrameId) (r : Outcome) (j : Interpreter) : Prop :=
  ∃ fuel, i.evaluate fuel t f = some (r, j)

theorem returns_iff_yields {i j : Interpreter} {t : Term} {f : FrameId} {r : Outcome} :
    i.Returns t f r j ↔ j.root = i.root ∧
      Plan.Yields Evaluation.body (Evaluation.body ⟨t, f⟩ i.state) r j.state := by
  obtain ⟨root, s⟩ := i
  obtain ⟨root', u⟩ := j
  rw [← Plan.run_eq_some_iff]
  constructor
  · rintro ⟨fuel, h⟩
    simp only [evaluate] at h
    split at h
    · rename_i r' u' hrun
      cases h
      exact ⟨rfl, fuel, hrun⟩
    · cases h
  · rintro ⟨rfl, fuel, h⟩
    exact ⟨fuel, by simp only [evaluate, h]⟩

/-- No evaluation has two ends. -/
theorem Returns.unique {i j k : Interpreter} {t : Term} {f : FrameId} {r r' : Outcome}
    (h : i.Returns t f r j) (h' : i.Returns t f r' k) : r = r' ∧ j = k := by
  obtain ⟨hroot, hy⟩ := returns_iff_yields.mp h
  obtain ⟨hroot', hy'⟩ := returns_iff_yields.mp h'
  obtain ⟨hr, hstate⟩ := hy.unique hy'
  refine ⟨hr, ?_⟩
  cases j
  cases k
  simp_all

end Interpreter

end TreeScript

import TreeScript.Proofs.Evaluation.FailurePoint

/-!
A call stack in the hands of a holder that pushes and pops calls, asks for the calls in progress
and attaches them to failures, in any order. Main statement: at all times the stack is what the
log of all this makes it, and a failure keeps the calls that it was given first.
-/
namespace TreeScript

namespace CallStack

/-- What a holder of a call stack does with it. -/
inductive Operation where
  | push (c : Call)
  | pop
  | capture
  | attach (e : Failure)

inductive Answer where
  | done
  | refused (e : Failure)
  | calls (b : Backtrace)
  | failure (e : Failure)

/-- The answer to an operation and the stack after it. A push that is refused gives no stack, so
the holder still has the old one. -/
def perform (s : CallStack) : Operation → Answer × CallStack
  | .push c =>
    match s.push c with
    | .ok t => (.done, t)
    | .error e => (.refused e, s)
  | .pop => (.done, s.pop)
  | .capture => (.calls s.capture, s)
  | .attach e => (.failure (s.attach e), s)

/-- Operations with their answers, the latest first. -/
abbrev Log := List (Operation × Answer)

namespace Log

def pushes : Log → Nat
  | [] => 0
  | (.push _, .done) :: log => pushes log + 1
  | _ :: log => pushes log

def pops : Log → Nat
  | [] => 0
  | (.pop, _) :: log => pops log + 1
  | _ :: log => pops log

/-- The calls pushed and not popped, the last pushed first. Each pop takes the last call pushed
before it that no other pop takes; `taken` later pops have still to come to theirs. -/
def standing (taken : Nat) : Log → List Call
  | [] => []
  | (.push c, .done) :: log =>
    match taken with
    | 0 => c :: standing 0 log
    | taken + 1 => standing taken log
  | (.pop, _) :: log => standing (taken + 1) log
  | _ :: log => standing taken log

end Log

/-- The stack becomes another by the operations of the log. One without calls is not popped. -/
inductive Becomes (s : CallStack) : Log → CallStack → Prop where
  | unchanged : Becomes s [] s
  | next {log : Log} {t : CallStack} (op : Operation) : Becomes s log t →
      (op = .pop → 0 < t.depth) → Becomes s ((op, (t.perform op).1) :: log) (t.perform op).2

@[simp] theorem calls_capture_enter (s : CallStack) (c : Call) :
    (s.enter c).capture.calls = c :: s.capture.calls := by
  simp [enter, capture]

@[simp] theorem calls_capture_pop (s : CallStack) :
    s.pop.capture.calls = s.capture.calls.drop 1 := by
  simp [pop, capture]

/-- A failure that has calls keeps them. -/
theorem attach_attached {s : CallStack} {e : Failure}
    (h : e.backtrace.isSome = true ∨ 0 < s.depth) (t : CallStack) :
    t.attach (s.attach e) = s.attach e := by
  apply attach_of_isSome
  rcases h with he | hs
  · rwa [attach_of_isSome he]
  · exact isSome_backtrace_attach hs e

/-- The stack is what the log makes of one that was empty, under the limit. -/
structure Log.Describes (log : Log) (limit : Option Nat) (s : CallStack) : Prop where
  limit_eq : s.limit = limit
  depth_le : ∀ m, limit = some m → s.depth ≤ m
  depth_add_pops : s.depth + log.pops = log.pushes
  standing_eq : ∀ taken, log.standing taken = s.capture.calls.drop taken

namespace Log.Describes
variable {log : Log} {limit : Option Nat} {s : CallStack}

theorem calls_eq (h : log.Describes limit s) : s.capture.calls = log.standing 0 :=
  (h.standing_eq 0).symm

theorem standing_ne_nil_iff (h : log.Describes limit s) : log.standing 0 ≠ [] ↔ 0 < s.depth := by
  rw [← h.calls_eq, ← length_capture, Backtrace.length, List.length_pos_iff]

/-- The limit is reached exactly when the depth equals it. -/
theorem exhausted?_eq (h : log.Describes limit s) :
    s.exhausted? = if limit = some s.depth then limit else none := by
  split
  · rename_i hfull
    rw [hfull]
    exact exhausted?_eq_some_iff.mpr ⟨h.limit_eq.trans hfull, Nat.le_refl _⟩
  · rename_i hroom
    refine exhausted?_eq_none_iff.mpr fun m hm => ?_
    have hlimit : limit = some m := h.limit_eq.symm.trans hm
    refine Nat.lt_of_le_of_ne (h.depth_le m hlimit) ?_
    rintro rfl
    exact hroom hlimit

theorem push_eq_error_iff (h : log.Describes limit s) (c : Call) :
    (∃ e, s.push c = .error e) ↔ limit = some s.depth := by
  by_cases hfull : limit = some s.depth
  · simp [push, h.exhausted?_eq, hfull]
  · simp [push, h.exhausted?_eq, hfull]

theorem perform_push (h : log.Describes limit s) (c : Call) :
    s.perform (.push c) =
      if limit = some s.depth then (.refused (.ofCause (.stackOverflow s.depth)), s)
      else (.done, s.enter c) := by
  by_cases hfull : limit = some s.depth
  · simp [CallStack.perform, push, h.exhausted?_eq, hfull]
  · simp [CallStack.perform, push, h.exhausted?_eq, hfull]

theorem empty : Describes [] limit (.empty limit) where
  limit_eq := rfl
  depth_le _ _ := Nat.zero_le _
  depth_add_pops := rfl
  standing_eq taken := by simp [standing, capture, CallStack.empty]

theorem pushed (h : log.Describes limit s) (hroom : limit ≠ some s.depth) (c : Call) :
    Describes ((.push c, .done) :: log) limit (s.enter c) where
  limit_eq := h.limit_eq
  depth_le m hm := by
    have hle := h.depth_le m hm
    have hne : m ≠ s.depth := by
      rintro rfl
      exact hroom hm
    rw [depth_enter]
    omega
  depth_add_pops := by
    have hcount := h.depth_add_pops
    simp only [depth_enter, pops, pushes]
    omega
  standing_eq taken := by cases taken <;> simp [standing, h.standing_eq]

theorem popped (h : log.Describes limit s) (hdepth : 0 < s.depth) (a : Answer) :
    Describes ((.pop, a) :: log) limit s.pop where
  limit_eq := h.limit_eq
  depth_le m hm := by
    have hle := h.depth_le m hm
    rw [depth_pop]
    omega
  depth_add_pops := by
    have hcount := h.depth_add_pops
    simp only [depth_pop, pops, pushes]
    omega
  standing_eq taken := by simp [standing, h.standing_eq]

/-- A refused push, a capture or an attachment changes neither the stack nor what stands. -/
theorem perform (h : log.Describes limit s) (op : Operation) (hop : op = .pop → 0 < s.depth) :
    Describes ((op, (s.perform op).1) :: log) limit (s.perform op).2 := by
  cases op with
  | push c =>
    rw [h.perform_push c]
    split
    · exact ⟨h.limit_eq, h.depth_le, h.depth_add_pops, h.standing_eq⟩
    · rename_i hroom
      exact h.pushed hroom c
  | pop => exact h.popped (hop rfl) _
  | capture | attach e => exact ⟨h.limit_eq, h.depth_le, h.depth_add_pops, h.standing_eq⟩

theorem of_becomes (h : Becomes (.empty limit) log s) : log.Describes limit s := by
  induction h with
  | unchanged => exact .empty
  | next op _ hop ih => exact ih.perform op hop

theorem attach_eq_self (h : log.Describes limit s) (hstanding : log.standing 0 = [])
    (e : Failure) : s.attach e = e := by
  apply attach_of_depth_zero
  rw [← length_capture, Backtrace.length, h.calls_eq, hstanding, List.length_nil]

theorem attach_eq (h : log.Describes limit s) {e : Failure} (he : e.backtrace = none)
    (hstanding : log.standing 0 ≠ []) :
    s.attach e = { e with backtrace := some ⟨log.standing 0⟩ } := by
  rw [attach_of_depth_pos (h.standing_ne_nil_iff.mp hstanding) he, ← h.calls_eq]
  rfl

end Log.Describes

end CallStack

open CallStack (Becomes Log)

/-- Whatever was done with a stack that was empty at first, there are never more calls than the
limit allows, and as many as were pushed and not popped. A push is refused exactly when their
number equals the limit; the refusal names the limit, and the stack stays as it is. The calls in
progress are those that stand in the log, the last pushed first. A failure is given exactly these,
unless it has calls already or none stand. Nothing else of it changes, and once it has calls, no
stack gives it others. -/
theorem stack_follows_operations {limit : Option Nat} {log : Log} {s : CallStack}
    (h : Becomes (.empty limit) log s) :
    (∀ m, limit = some m → s.depth ≤ m) ∧
    s.depth + log.pops = log.pushes ∧
    (∀ c, (∃ e, s.push c = .error e) ↔ limit = some s.depth) ∧
    (∀ c, limit = some s.depth →
      s.perform (.push c) = (.refused (.ofCause (.stackOverflow s.depth)), s)) ∧
    (∀ c, limit ≠ some s.depth → s.perform (.push c) = (.done, s.enter c)) ∧
    s.capture = ⟨log.standing 0⟩ ∧
    (∀ e, e.backtrace.isSome = true ∨ log.standing 0 = [] → s.attach e = e) ∧
    (∀ e, e.backtrace = none → log.standing 0 ≠ [] →
      s.attach e = { e with backtrace := some ⟨log.standing 0⟩ }) ∧
    ∀ e (t : CallStack), e.backtrace.isSome = true ∨ log.standing 0 ≠ [] →
      t.attach (s.attach e) = s.attach e := by
  have hlog := Log.Describes.of_becomes h
  refine ⟨hlog.depth_le, hlog.depth_add_pops, hlog.push_eq_error_iff, ?_, ?_, ?_, ?_, ?_, ?_⟩
  · intro c hfull
    rw [hlog.perform_push, if_pos hfull]
  · intro c hroom
    rw [hlog.perform_push, if_neg hroom]
  · rw [← hlog.calls_eq]
  · rintro e (he | hstanding)
    · exact CallStack.attach_of_isSome he
    · exact hlog.attach_eq_self hstanding e
  · intro e he hstanding
    exact hlog.attach_eq he hstanding
  · intro e t hattached
    rw [hlog.standing_ne_nil_iff] at hattached
    exact CallStack.attach_attached hattached t

def readCall : Call := ⟨"read", ⟨"p", 0, 6⟩⟩

def writeCall : Call := ⟨"write", ⟨"p", 7, 14⟩⟩

theorem stack_follows_operations_refusing :
    ∃ s, Becomes (.empty (some 1))
        [(.push writeCall, .refused (.ofCause (.stackOverflow 1))), (.push readCall, .done),
          (.pop, .done), (.push writeCall, .done)] s ∧
      (∃ e, s.push writeCall = .error e) ∧ s.capture = ⟨[readCall]⟩ ∧
      s.attach (.ofCause .divisionByZero) =
        ⟨.divisionByZero, "division by zero", none, some ⟨[readCall]⟩, []⟩ ∧
      s.pop.attach (s.attach (.ofCause .divisionByZero)) =
        s.attach (.ofCause .divisionByZero) := by
  have hwrite : Becomes (.empty (some 1)) [(.push writeCall, .done)] ⟨#[writeCall], some 1⟩ :=
    .next (.push writeCall) .unchanged (by simp)
  have hread : Becomes (.empty (some 1))
      [(.push readCall, .done), (.pop, .done), (.push writeCall, .done)] ⟨#[readCall], some 1⟩ :=
    .next (.push readCall) (.next .pop hwrite fun _ => by decide) (by simp)
  have hrefused := hread.next (.push writeCall) (by simp)
  obtain ⟨-, -, hpush, -, -, hcapture, -, hattach, hkeep⟩ := stack_follows_operations hrefused
  refine ⟨_, hrefused, (hpush writeCall).mpr rfl, hcapture, ?_, ?_⟩
  · exact hattach (.ofCause .divisionByZero) rfl (by decide)
  · exact hkeep (.ofCause .divisionByZero) _ (.inr (by decide))

end TreeScript

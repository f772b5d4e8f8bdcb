import Mathlib
import TreeScript.Proofs.Evaluation.Discipline
import TreeScript.Proofs.Evaluation.FailurePoint
import TreeScript.Proofs.Store.Holding
import TreeScript.Proofs.Term.Nesting

/-!
Where a failure comes from. Main statement: it is the failure of the first node whose own step
fails, unchanged but for its backtrace; this node was written in the evaluated term or in the
body of a closure that the store held, and its kind fits the cause.
-/
namespace TreeScript

/-- The second term stands in the first, or in the body of a closure that the store holds. -/
def Written (t : Term) (s : Store) (u : Term) : Prop :=
  t.Contains u ∨ ∃ c, s.Holds c ∧ c.body.Contains u

theorem Written.child {t u c : Term} {s : Store} (h : Written t s u) (hc : c ∈ u.children) :
    Written t s c := by
  rcases h with h | ⟨closure, hheld, h⟩
  · exact .inl (h.child hc)
  · exact .inr ⟨closure, hheld, h.child hc⟩

/-- The store holds the closure, or the closure is made from a function written in the term or
in the body of a closure that the store holds. -/
def Native (t : Term) (s : Store) (c : Closure) : Prop := s.Holds c ∨ Written t s c.node.term

theorem Native.body {t : Term} {s : Store} {c : Closure} (h : Native t s c) :
    Written t s c.body := by
  rcases h with h | h
  · exact .inr ⟨c, h, .self⟩
  · exact h.child (.head _)

namespace Evaluation

/-- Only what is written is evaluated, and closures are made from nothing else. -/
def nativeDiscipline (t : Term) (s : Store) : Discipline Unit where
  le _ _ := True
  allows _ q _ := Written t s q.term
  owns _ c := Native t s c
  fits _ u := ∀ c, u.Holds c → Native t s c
  refl _ := trivial
  trans _ _ := trivial
  allows_mono _ h := h
  owns_mono _ h := h
  ask h hask := h.child hask.mem_children
  make h := .inr h
  lookup hfits h c hc := hfits c (Store.holds_of_lookup h hc)
  bind _ hfits hv c hc := by
    rcases hc.of_bind with hc | hc
    · exact hv c hc
    · exact hfits c hc
  frames hfits h c hc := hfits c (hc.of_frames h)
  enter _ _ hfits hc hvs := by
    refine ⟨(), trivial, hc.body, ?_⟩
    intro c hheld
    rcases hheld.of_newChild with ⟨v, hv, hc⟩ | hheld
    · exact hvs v hv c hc
    · exact hfits c hheld

section Native
variable {t : Term} {f : FrameId} {s : State}

/-- Every node that an evaluation comes to is written in the term or in a closure held. -/
theorem written_of_reaches {calls : List Call} {p : Request} {w : State}
    (h : Reaches calls ⟨t, f⟩ s p w) : Written t s.store p.term := by
  obtain ⟨_, -, hp, -⟩ := Discipline.allows_of_reaches (D := nativeDiscipline t s.store) (w := ())
    h (.inl .self) fun _ => .inl
  exact hp

/-- Every closure that a node on the way comes to is native. -/
theorem native_of_reaches {calls : List Call} {p q : Request} {w x u : State} {c : Closure}
    (h : Reaches calls ⟨t, f⟩ s p w) (hask : Asks p w q x)
    (hc : Evaluates q.term q.frame x (.ok (.closure c)) u) : Native t s.store c := by
  obtain ⟨y, -, hq, hx⟩ := Discipline.allows_of_reaches (D := nativeDiscipline t s.store) (w := ())
    (h.ask hask) (.inl .self) fun _ => .inl
  obtain ⟨_, -, -, howned⟩ := (Discipline.keeps_of_evaluates hc y hq hx).ok
  exact Discipline.owned_closure.mp howned

end Native

/-- The cause and the notes fit the node that fails. Only a call with the wrong number of
arguments has a note: it tells where the called closure's function was written. -/
inductive Explains (native : Closure → Prop) : Request → State → Failure.Cause →
    List Failure.Note → Prop where
  | undefinedVariable {name : String} {l : Location} {f : FrameId} {s : State} :
      Explains native ⟨.var name l, f⟩ s (.undefinedVariable name) []
  | invalidOperation {op : Operator} {lhs rhs : Term} {l : Location} {f : FrameId} {s : State}
      {left right : ValueKind} :
      Explains native ⟨.binary op lhs rhs l, f⟩ s (.invalidOperation op left right) []
  | divisionByZero {op : Operator} {lhs rhs : Term} {l : Location} {f : FrameId} {s : State} :
      op = .div ∨ op = .rem → Explains native ⟨.binary op lhs rhs l, f⟩ s .divisionByZero []
  | first {pair : Term} {l : Location} {f : FrameId} {s : State} {got : ValueKind} :
      got ≠ .tuple → Explains native ⟨.first pair l, f⟩ s (.typeMismatch .tuple got) []
  | second {pair : Term} {l : Location} {f : FrameId} {s : State} {got : ValueKind} :
      got ≠ .tuple → Explains native ⟨.second pair l, f⟩ s (.typeMismatch .tuple got) []
  | notCallable {callee : Term} {arguments : List Term} {l : Location} {f : FrameId} {s : State}
      {got : ValueKind} : got ≠ .closure →
      Explains native ⟨.call callee arguments l, f⟩ s (.notCallable got) []
  | arityMismatch {callee : Term} {arguments : List Term} {l : Location} {f : FrameId}
      {s t : State} {c : Closure} :
      Evaluates callee f s.visit (.ok (.closure c)) t → native c →
      c.parameters.length ≠ arguments.length →
      Explains native ⟨.call callee arguments l, f⟩ s
        (.arityMismatch c.parameters.length arguments.length)
        [⟨"function defined here", c.location⟩]
  | stackOverflow {callee : Term} {arguments : List Term} {l : Location} {f : FrameId} {s : State}
      {limit : Nat} : s.stack.limit = some limit →
      Explains native ⟨.call callee arguments l, f⟩ s (.stackOverflow limit) []

theorem FailsAt.explains {t : Term} {f : FrameId} {s w : State} {calls : List Call} {p : Request}
    {e : Failure} (h : FailsAt ⟨t, f⟩ s calls p w e) :
    Explains (Native t s.store) p w e.cause e.notes := by
  obtain ⟨hreaches, hraises⟩ := h
  cases hraises with
  | undefined _ => exact .undefinedVariable
  | operation _ _ hop =>
    rcases Operator.apply_eq_error hop with ⟨rfl, hdiv⟩ | rfl
    · exact .divisionByZero hdiv
    · exact .invalidOperation
  | firstOfOther _ hk => exact .first hk
  | secondOfOther _ hk => exact .second hk
  | notCallable _ hk => exact .notCallable hk
  | wrongArity hc hvs h =>
    rw [hvs.length_eq] at h ⊢
    exact .arityMismatch hc (native_of_reaches hreaches .callee hc) (Ne.symm h)
  | refused hc hvs _ hlimit _ =>
    rw [hvs.stack_eq, hc.stack_eq] at hlimit
    exact .stackOverflow hlimit

theorem Raises.location_eq {p : Request} {w : State} {e : Failure} (h : Raises p w e) :
    e.location = some p.term.location := by
  cases h <;> rfl

/-- A node raises a failure with the message of its cause. -/
theorem Raises.message_eq {p : Request} {w : State} {e : Failure} (h : Raises p w e) :
    e.message = e.cause.message := by
  cases h with
  | operation _ _ hop => rcases Operator.apply_eq_error hop with ⟨rfl, -⟩ | rfl <;> rfl
  | undefined | firstOfOther | secondOfOther | notCallable | wrongArity | refused => rfl

/-- On its way out a failure keeps its cause, its message, its location and its notes. -/
theorem FailsAt.same {q p : Request} {s w u : State} {calls : List Call} {e d : Failure}
    (h : FailsAt q s calls p w d) (he : Evaluates q.term q.frame s (.error e) u) :
    e.cause = d.cause ∧ e.message = d.message ∧ e.location = d.location ∧ e.notes = d.notes := by
  rcases h.error he with rfl | ⟨-, rfl⟩
  · exact ⟨CallStack.cause_attach _ _, CallStack.message_attach _ _,
      CallStack.location_attach _ _, CallStack.notes_attach _ _⟩
  · exact ⟨rfl, rfl, rfl, rfl⟩

end Evaluation

open Evaluation

/-- A failing evaluation comes to a node whose own step fails, and its failure is the one that
this node raises: with the cause, the message and the notes it has there, at the location of
the node. The node is written in the term or in a closure that the store held, and the cause
and the notes fit it. -/
theorem failure_of_failing_node (i j : Interpreter) (t : Term) (f : FrameId) (e : Failure)
    (h : i.Returns t f (.error e) j) :
    (∃ calls p w d, FailsAt ⟨t, f⟩ i.state calls p w d) ∧
      ∀ calls p w d, FailsAt ⟨t, f⟩ i.state calls p w d →
        e.cause = d.cause ∧ e.message = d.cause.message ∧ e.location = some p.term.location ∧
          e.notes = d.notes ∧ Written t i.state.store p.term ∧
          Explains (Native t i.state.store) p w e.cause e.notes := by
  obtain ⟨-, hy⟩ := Interpreter.returns_iff_yields.mp h
  have hevaluates := yields_iff_evaluates.mp hy
  refine ⟨hevaluates.fails e rfl, ?_⟩
  intro calls p w d hfails
  obtain ⟨hcause, hmessage, hlocation, hnotes⟩ := hfails.same hevaluates
  refine ⟨hcause, hmessage.trans hfails.2.message_eq, hlocation.trans hfails.2.location_eq,
    hnotes, written_of_reaches hfails.1, ?_⟩
  rw [hcause, hnotes]
  exact hfails.explains

/-- A function of two parameters, called with one argument in the body of another function. -/
def shortCall : Term :=
  .binding ⟨"f", .unstated⟩
    (.function [⟨"x", .unstated⟩, ⟨"y", .unstated⟩] (.var "x" .unstated) ⟨"short", 8, 24⟩)
    (.binding ⟨"g", .unstated⟩
      (.function [⟨"z", .unstated⟩]
        (.call (.var "f" .unstated) [.var "z" .unstated] ⟨"short", 50, 54⟩) .unstated)
      (.print (.call (.var "g" .unstated) [.int 1 .unstated] ⟨"short", 70, 74⟩) .unstated)
      .unstated) .unstated

theorem failure_of_failing_node_shortCall :
    ∃ e j calls p w d, (Interpreter.new none .silent false).Returns shortCall ⟨0⟩ (.error e) j ∧
      FailsAt ⟨shortCall, ⟨0⟩⟩ (Interpreter.new none .silent false).state calls p w d ∧
      e.location = some p.term.location ∧ p.term.location = ⟨"short", 50, 54⟩ ∧
      Explains (Native shortCall (Interpreter.new none .silent false).state.store) p w
        (.arityMismatch 2 1) [⟨"function defined here", ⟨"short", 8, 24⟩⟩] := by
  have hrun : ((Interpreter.new none .silent false).evaluate 60 shortCall ⟨0⟩).map Prod.fst =
      some (.error ⟨.arityMismatch 2 1, "expected 2 arguments, got 1", some ⟨"short", 50, 54⟩,
        some ⟨[⟨"g", ⟨"short", 70, 74⟩⟩]⟩,
        [⟨"function defined here", ⟨"short", 8, 24⟩⟩]⟩) := by
    cbv
  obtain ⟨⟨r, j⟩, hj, rfl⟩ := Option.map_eq_some_iff.mp hrun
  obtain ⟨⟨calls, p, w, d, hfails⟩, hall⟩ :=
    failure_of_failing_node _ j shortCall ⟨0⟩ _ ⟨60, hj⟩
  obtain ⟨-, -, hlocation, -, -, hexplains⟩ := hall calls p w d hfails
  exact ⟨_, j, calls, p, w, d, ⟨60, hj⟩, hfails, hlocation, (Option.some.inj hlocation).symm,
    hexplains⟩

end TreeScript

import TreeScript.Evaluation.State
import TreeScript.Operation
import TreeScript.Plan.Basic

/-!
Evaluation of a term in a frame, as plans. A binding binds in the frame it stands in
and goes on with what follows; a condition goes on with the chosen branch; a call runs
its body in a new frame below the frame of the closure. The first failure ends the
evaluation.
-/
namespace TreeScript.Evaluation

structure Request where
  term : Term
  frame : FrameId

abbrev EvalPlan := Plan State Request Outcome

def value (v : Value) (s : State) : EvalPlan := .answer (.ok v) s

def fail (cause : Failure.Cause) (l : Location) (s : State) : EvalPlan :=
  .answer (.error ((Failure.ofCause cause).located l)) s

/-- The name under which a backtrace shows a call. -/
def calleeName : Term → String
  | .var name _ => name
  | _ => "<anonymous>"

/-- Leaves a call. A failure takes the calls in progress with it, unless a call further
inside gave it its own. -/
def leaveCall (r : Outcome) (s : State) : EvalPlan :=
  match r with
  | .ok v => .answer (.ok v) s.leave
  | .error e =>
    let e := s.stack.attach e
    .answer (.error e) s.leave

/-- Calls a closure with evaluated arguments. -/
def enterCall (c : Closure) (arguments : List Value) (call : Call) (s : State) : EvalPlan :=
  if arguments.length ≠ c.arity then
    .answer (.error ((Failure.wrongArity c arguments.length).located call.location)) s
  else
    match s.stack.exhausted? with
    | some limit =>
      let e := (Failure.ofCause (.stackOverflow limit)).located call.location
      .answer (.error (s.stack.attach e)) s
    | none =>
      let (f, s) := s.enter c arguments call
      .call ⟨c.body, f⟩ s leaveCall

/-- What the visit of a node does. -/
def body (q : Request) (s : State) : EvalPlan :=
  let s := s.visit
  let f := q.frame
  match q.term with
  | .int n _ => value (.int n) s
  | .str text _ => value (.str text) s
  | .bool b _ => value (.bool b) s
  | .var name l =>
    match s.store.lookup f name with
    | some v => value v s
    | none => fail (.undefinedVariable name) l s
  | .binding name bound next _ =>
    .ask ⟨bound, f⟩ s fun v s => .jump ⟨next, f⟩ (s.bind f name.text v)
  | .conditional condition consequent alternative _ =>
    .ask ⟨condition, f⟩ s fun v s =>
    .jump ⟨if v.isTruthy then consequent else alternative, f⟩ s
  | .binary op lhs rhs l =>
    .ask ⟨lhs, f⟩ s fun left s =>
    .ask ⟨rhs, f⟩ s fun right s =>
    match op.apply left right with
    | .ok v => value v s
    | .error e => .answer (.error (e.located l)) s
  | .print printed _ => .ask ⟨printed, f⟩ s fun v s => value v (s.print v)
  | .tuple left right _ =>
    .ask ⟨left, f⟩ s fun a s =>
    .ask ⟨right, f⟩ s fun b s =>
    value (.tuple a b) s
  | .first pair l =>
    .ask ⟨pair, f⟩ s fun v s =>
    match v with
    | .tuple a _ => value a s
    | v => fail (.typeMismatch .tuple v.kind) l s
  | .second pair l =>
    .ask ⟨pair, f⟩ s fun v s =>
    match v with
    | .tuple _ b => value b s
    | v => fail (.typeMismatch .tuple v.kind) l s
  | .function parameters functionBody l =>
    let (v, s) := s.newClosure parameters functionBody f l
    value v s
  | .call callee arguments l =>
    .ask ⟨callee, f⟩ s fun v s =>
    match v with
    | .closure c =>
      .askAll (arguments.map fun t => ⟨t, f⟩) s [] fun vs s =>
      enterCall c vs ⟨calleeName callee, l⟩ s
    | v => fail (.notCallable v.kind) l s

end TreeScript.Evaluation

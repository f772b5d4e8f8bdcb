import TreeScript.Proofs.Evaluation.Output
import TreeScript.Proofs.Operation.Laws
import TreeScript.Proofs.Store.Effects

/-!
The plain recursive meaning of terms: one rule for each way in which a node comes to a
value or fails, each rule about the meaning of its children alone. A rule says itself what
becomes of frames, printed text, calls in progress and counters.
-/
namespace TreeScript

/-- The failure that a node raises, at the node and with the message of its cause. -/
def Failure.raised (cause : Failure.Cause) (l : Location) : Failure where
  cause := cause
  message := cause.message
  location := some l
  backtrace := none
  notes := []

namespace Evaluation

/-- One node more is counted. -/
def State.counted (s : State) : State :=
  { s with counters := s.counters.map fun n => { n with terms := n.terms + 1 } }

/-- The call is in progress and counted, and the store has a frame for its body. -/
def State.within (s : State) (call : Call) (store : Store) : State where
  store := store
  printer := s.printer
  stack := { s.stack with calls := s.stack.calls.push call }
  counters := s.counters.map fun n =>
    { n with calls := n.calls + 1, maxDepth := max n.maxDepth (s.stack.calls.size + 1) }

/-- The name that a call is given: that of the variable it is made through, if it is one. -/
inductive CalledAs : Term → String → Prop where
  | var (name : String) (l : Location) : CalledAs (.var name l) name
  | other {callee : Term} : callee.kind ≠ .var → CalledAs callee "<anonymous>"

mutual

/-- A term in a frame takes a state to an outcome and a new state. A failure of a child
is the failure of the node, and nothing to the right of it happens. -/
inductive Evaluates : Term → FrameId → State → Outcome → State → Prop where
  | int {n : Int} {l : Location} {f : FrameId} {s : State} :
      Evaluates (.int n l) f s (.ok (.int n)) s.counted
  | str {text : String} {l : Location} {f : FrameId} {s : State} :
      Evaluates (.str text l) f s (.ok (.str text)) s.counted
  | bool {b : Bool} {l : Location} {f : FrameId} {s : State} :
      Evaluates (.bool b l) f s (.ok (.bool b)) s.counted
  | var {name : String} {l : Location} {f : FrameId} {s : State} {v : Value} :
      s.store.Finds name f v → Evaluates (.var name l) f s (.ok v) s.counted
  | undefined {name : String} {l : Location} {f : FrameId} {s : State} :
      (∀ v, ¬ s.store.Finds name f v) →
      Evaluates (.var name l) f s (.error (.raised (.undefinedVariable name) l)) s.counted
  -- The function keeps a handle to the current frame; its body is left alone.
  | function {parameters : List Parameter} {body : Term} {l : Location} {f : FrameId} {s : State} :
      Evaluates (.function parameters body l) f s
        (.ok (.closure ⟨s.store.closures, parameters, body, f, l⟩))
        { s.counted with store := { s.store with closures := s.store.closures + 1 } }
  -- The name is bound in the frame of the binding itself, where what follows goes on.
  | binding {name : Parameter} {bound next : Term} {l : Location} {f : FrameId} {s t u : State}
      {store : Store} {v : Value} {r : Outcome} :
      Evaluates bound f s.counted (.ok v) t → t.store.Binds f name.text v store →
      Evaluates next f { t with store := store } r u →
      Evaluates (.binding name bound next l) f s r u
  | boundFails {name : Parameter} {bound next : Term} {l : Location} {f : FrameId} {s t : State}
      {e : Failure} :
      Evaluates bound f s.counted (.error e) t →
      Evaluates (.binding name bound next l) f s (.error e) t
  | consequent {condition consequent alternative : Term} {l : Location} {f : FrameId}
      {s t u : State} {v : Value} {r : Outcome} :
      Evaluates condition f s.counted (.ok v) t → v.Truthy → Evaluates consequent f t r u →
      Evaluates (.conditional condition consequent alternative l) f s r u
  | alternative {condition consequent alternative : Term} {l : Location} {f : FrameId}
      {s t u : State} {v : Value} {r : Outcome} :
      Evaluates condition f s.counted (.ok v) t → ¬ v.Truthy → Evaluates alternative f t r u →
      Evaluates (.conditional condition consequent alternative l) f s r u
  | conditionFails {condition consequent alternative : Term} {l : Location} {f : FrameId}
      {s t : State} {e : Failure} :
      Evaluates condition f s.counted (.error e) t →
      Evaluates (.conditional condition consequent alternative l) f s (.error e) t
  -- Both sides are evaluated, whatever the operator.
  | binary {op : Operator} {lhs rhs : Term} {l : Location} {f : FrameId} {s t u : State}
      {a b v : Value} :
      Evaluates lhs f s.counted (.ok a) t → Evaluates rhs f t (.ok b) u → op.Gives a b v →
      Evaluates (.binary op lhs rhs l) f s (.ok v) u
  | dividesByZero {op : Operator} {lhs rhs : Term} {l : Location} {f : FrameId} {s t u : State}
      {a b : Value} :
      Evaluates lhs f s.counted (.ok a) t → Evaluates rhs f t (.ok b) u → op.DividesByZero a b →
      Evaluates (.binary op lhs rhs l) f s (.error (.raised .divisionByZero l)) u
  | misfits {op : Operator} {lhs rhs : Term} {l : Location} {f : FrameId} {s t u : State}
      {a b : Value} :
      Evaluates lhs f s.counted (.ok a) t → Evaluates rhs f t (.ok b) u → op.Misfits a b →
      Evaluates (.binary op lhs rhs l) f s
        (.error (.raised (.invalidOperation op a.kind b.kind) l)) u
  | lhsFails {op : Operator} {lhs rhs : Term} {l : Location} {f : FrameId} {s t : State}
      {e : Failure} :
      Evaluates lhs f s.counted (.error e) t → Evaluates (.binary op lhs rhs l) f s (.error e) t
  | rhsFails {op : Operator} {lhs rhs : Term} {l : Location} {f : FrameId} {s t u : State}
      {a : Value} {e : Failure} :
      Evaluates lhs f s.counted (.ok a) t → Evaluates rhs f t (.error e) u →
      Evaluates (.binary op lhs rhs l) f s (.error e) u
  | print {printed : Term} {l : Location} {f : FrameId} {s t : State} {v : Value} :
      Evaluates printed f s.counted (.ok v) t →
      Evaluates (.print printed l) f s (.ok v)
        { t with printer := t.printer.receive (v.text ++ "\n") }
  | printedFails {printed : Term} {l : Location} {f : FrameId} {s t : State} {e : Failure} :
      Evaluates printed f s.counted (.error e) t → Evaluates (.print printed l) f s (.error e) t
  | tuple {left right : Term} {l : Location} {f : FrameId} {s t u : State} {a b : Value} :
      Evaluates left f s.counted (.ok a) t → Evaluates right f t (.ok b) u →
      Evaluates (.tuple left right l) f s (.ok (.tuple a b)) u
  | leftFails {left right : Term} {l : Location} {f : FrameId} {s t : State} {e : Failure} :
      Evaluates left f s.counted (.error e) t → Evaluates (.tuple left right l) f s (.error e) t
  | rightFails {left right : Term} {l : Location} {f : FrameId} {s t u : State} {a : Value}
      {e : Failure} :
      Evaluates left f s.counted (.ok a) t → Evaluates right f t (.error e) u →
      Evaluates (.tuple left right l) f s (.error e) u
  | first {pair : Term} {l : Location} {f : FrameId} {s t : State} {a b : Value} :
      Evaluates pair f s.counted (.ok (.tuple a b)) t → Evaluates (.first pair l) f s (.ok a) t
  | firstOfOther {pair : Term} {l : Location} {f : FrameId} {s t : State} {v : Value} :
      Evaluates pair f s.counted (.ok v) t → v.kind ≠ .tuple →
      Evaluates (.first pair l) f s (.error (.raised (.typeMismatch .tuple v.kind) l)) t
  | firstFails {pair : Term} {l : Location} {f : FrameId} {s t : State} {e : Failure} :
      Evaluates pair f s.counted (.error e) t → Evaluates (.first pair l) f s (.error e) t
  | second {pair : Term} {l : Location} {f : FrameId} {s t : State} {a b : Value} :
      Evaluates pair f s.counted (.ok (.tuple a b)) t → Evaluates (.second pair l) f s (.ok b) t
  | secondOfOther {pair : Term} {l : Location} {f : FrameId} {s t : State} {v : Value} :
      Evaluates pair f s.counted (.ok v) t → v.kind ≠ .tuple →
      Evaluates (.second pair l) f s (.error (.raised (.typeMismatch .tuple v.kind) l)) t
  | secondFails {pair : Term} {l : Location} {f : FrameId} {s t : State} {e : Failure} :
      Evaluates pair f s.counted (.error e) t → Evaluates (.second pair l) f s (.error e) t
  | calleeFails {callee : Term} {arguments : List Term} {l : Location} {f : FrameId} {s t : State}
      {e : Failure} :
      Evaluates callee f s.counted (.error e) t →
      Evaluates (.call callee arguments l) f s (.error e) t
  -- No argument is evaluated for a callee that is no closure.
  | notCallable {callee : Term} {arguments : List Term} {l : Location} {f : FrameId} {s t : State}
      {v : Value} :
      Evaluates callee f s.counted (.ok v) t → v.kind ≠ .closure →
      Evaluates (.call callee arguments l) f s
        (.error (.raised (.notCallable v.kind) l)) t
  | argumentFails {callee : Term} {arguments : List Term} {l : Location} {f : FrameId}
      {s t u : State} {c : Closure} {e : Failure} :
      Evaluates callee f s.counted (.ok (.closure c)) t → EvaluatesAll arguments f t (.error e) u →
      Evaluates (.call callee arguments l) f s (.error e) u
  -- The number of the arguments is looked at first, then the limit.
  | wrongArity {callee : Term} {arguments : List Term} {l : Location} {f : FrameId}
      {s t u : State} {c : Closure} {vs : List Value} :
      Evaluates callee f s.counted (.ok (.closure c)) t → EvaluatesAll arguments f t (.ok vs) u →
      vs.length ≠ c.parameters.length →
      Evaluates (.call callee arguments l) f s
        (.error { Failure.raised (.arityMismatch c.parameters.length vs.length) l with
          notes := [⟨"function defined here", c.location⟩] }) u
  | refused {callee : Term} {arguments : List Term} {l : Location} {f : FrameId} {s t u : State}
      {c : Closure} {vs : List Value} {limit : Nat} :
      Evaluates callee f s.counted (.ok (.closure c)) t → EvaluatesAll arguments f t (.ok vs) u →
      vs.length = c.parameters.length → u.stack.limit = some limit →
      limit ≤ u.stack.calls.size →
      Evaluates (.call callee arguments l) f s
        (.error { Failure.raised (.stackOverflow limit) l with
          backtrace :=
            if u.stack.calls = #[] then none else some ⟨u.stack.calls.toList.reverse⟩ }) u
  | call {callee : Term} {arguments : List Term} {l : Location} {f : FrameId} {s t u w : State}
      {c : Closure} {vs : List Value} {name : String} {store : Store} {v : Value} :
      Evaluates callee f s.counted (.ok (.closure c)) t → EvaluatesAll arguments f t (.ok vs) u →
      vs.length = c.parameters.length →
      (∀ limit, u.stack.limit = some limit → u.stack.calls.size < limit) →
      CalledAs callee name → u.store.Opens c.frame c.parameters vs store →
      Evaluates c.body ⟨u.store.frames.size⟩ (u.within ⟨name, l⟩ store) (.ok v) w →
      Evaluates (.call callee arguments l) f s (.ok v) { w with stack := u.stack }
  -- A failure that has no calls yet takes those in progress, this one first.
  | bodyFails {callee : Term} {arguments : List Term} {l : Location} {f : FrameId}
      {s t u w : State} {c : Closure} {vs : List Value} {name : String} {store : Store}
      {e : Failure} :
      Evaluates callee f s.counted (.ok (.closure c)) t → EvaluatesAll arguments f t (.ok vs) u →
      vs.length = c.parameters.length →
      (∀ limit, u.stack.limit = some limit → u.stack.calls.size < limit) →
      CalledAs callee name → u.store.Opens c.frame c.parameters vs store →
      Evaluates c.body ⟨u.store.frames.size⟩ (u.within ⟨name, l⟩ store) (.error e) w →
      Evaluates (.call callee arguments l) f s
        (.error { e with
          backtrace := e.backtrace.or (some ⟨⟨name, l⟩ :: u.stack.calls.toList.reverse⟩) })
        { w with stack := u.stack }

/-- The arguments of a call, from left to right in one frame. -/
inductive EvaluatesAll :
    List Term → FrameId → State → Except Failure (List Value) → State → Prop where
  | nil {f : FrameId} {s : State} : EvaluatesAll [] f s (.ok []) s
  | cons {t : Term} {ts : List Term} {f : FrameId} {s u w : State} {v : Value} {vs : List Value} :
      Evaluates t f s (.ok v) u → EvaluatesAll ts f u (.ok vs) w →
      EvaluatesAll (t :: ts) f s (.ok (v :: vs)) w
  | headFails {t : Term} {ts : List Term} {f : FrameId} {s u : State} {e : Failure} :
      Evaluates t f s (.error e) u → EvaluatesAll (t :: ts) f s (.error e) u
  | tailFails {t : Term} {ts : List Term} {f : FrameId} {s u w : State} {v : Value} {e : Failure} :
      Evaluates t f s (.ok v) u → EvaluatesAll ts f u (.error e) w →
      EvaluatesAll (t :: ts) f s (.error e) w

end

end Evaluation

end TreeScript

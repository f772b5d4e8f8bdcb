import TreeScript.Proofs.Evaluation.BigStep
import TreeScript.Proofs.Plan.Demands

/-!
The positions of an evaluation: the nodes it comes to, each with the state it is evaluated
in and the calls whose bodies it stands in. Every request that a node makes is for one of its
children or for the body of the closure it calls, once what stands before has come to values.
-/
namespace TreeScript.Evaluation

/-- The node asks for a child in its own frame: the children before it have come to values. -/
inductive Asks : Request → State → Request → State → Prop where
  | bound {name : Parameter} {bound next : Term} {l : Location} {f : FrameId} {s : State} :
      Asks ⟨.binding name bound next l, f⟩ s ⟨bound, f⟩ s.visit
  | next {name : Parameter} {bound next : Term} {l : Location} {f : FrameId} {s t : State}
      {v : Value} : Evaluates bound f s.visit (.ok v) t →
      Asks ⟨.binding name bound next l, f⟩ s ⟨next, f⟩ (t.bind f name.text v)
  | condition {condition consequent alternative : Term} {l : Location} {f : FrameId} {s : State} :
      Asks ⟨.conditional condition consequent alternative l, f⟩ s ⟨condition, f⟩ s.visit
  | branch {condition consequent alternative : Term} {l : Location} {f : FrameId} {s t : State}
      {v : Value} : Evaluates condition f s.visit (.ok v) t →
      Asks ⟨.conditional condition consequent alternative l, f⟩ s
        ⟨if v.isTruthy then consequent else alternative, f⟩ t
  | lhs {op : Operator} {lhs rhs : Term} {l : Location} {f : FrameId} {s : State} :
      Asks ⟨.binary op lhs rhs l, f⟩ s ⟨lhs, f⟩ s.visit
  | rhs {op : Operator} {lhs rhs : Term} {l : Location} {f : FrameId} {s t : State} {a : Value} :
      Evaluates lhs f s.visit (.ok a) t → Asks ⟨.binary op lhs rhs l, f⟩ s ⟨rhs, f⟩ t
  | printed {printed : Term} {l : Location} {f : FrameId} {s : State} :
      Asks ⟨.print printed l, f⟩ s ⟨printed, f⟩ s.visit
  | left {left right : Term} {l : Location} {f : FrameId} {s : State} :
      Asks ⟨.tuple left right l, f⟩ s ⟨left, f⟩ s.visit
  | right {left right : Term} {l : Location} {f : FrameId} {s t : State} {a : Value} :
      Evaluates left f s.visit (.ok a) t → Asks ⟨.tuple left right l, f⟩ s ⟨right, f⟩ t
  | ofFirst {pair : Term} {l : Location} {f : FrameId} {s : State} :
      Asks ⟨.first pair l, f⟩ s ⟨pair, f⟩ s.visit
  | ofSecond {pair : Term} {l : Location} {f : FrameId} {s : State} :
      Asks ⟨.second pair l, f⟩ s ⟨pair, f⟩ s.visit
  | callee {callee : Term} {arguments : List Term} {l : Location} {f : FrameId} {s : State} :
      Asks ⟨.call callee arguments l, f⟩ s ⟨callee, f⟩ s.visit
  | argument {callee argument : Term} {before after : List Term} {l : Location} {f : FrameId}
      {s t u : State} {c : Closure} {vs : List Value} :
      Evaluates callee f s.visit (.ok (.closure c)) t → EvaluatesAll before f t (.ok vs) u →
      Asks ⟨.call callee (before ++ argument :: after) l, f⟩ s ⟨argument, f⟩ u

/-- The node calls the closure with the arguments in the state `u`, and the call is not
refused. -/
inductive Enters : Request → State → Call → Closure → List Value → State → Prop where
  | call {callee : Term} {arguments : List Term} {l : Location} {f : FrameId} {s t u : State}
      {c : Closure} {vs : List Value} :
      Evaluates callee f s.visit (.ok (.closure c)) t → EvaluatesAll arguments f t (.ok vs) u →
      vs.length = c.parameters.length →
      (∀ limit, u.stack.limit = some limit → u.stack.depth < limit) →
      Enters ⟨.call callee arguments l, f⟩ s ⟨calleeName callee, l⟩ c vs u

/-- The body of a closure that is called next, in the frame that the call makes. -/
def bodyRequest (c : Closure) (u : State) : Request := ⟨c.body, ⟨u.store.frames.size⟩⟩

/-- A request that the node makes. -/
inductive Makes (q : Request) (s : State) : Request → State → Prop where
  | child {p : Request} {t : State} : Asks q s p t → Makes q s p t
  | body {call : Call} {c : Closure} {vs : List Value} {u : State} :
      Enters q s call c vs u → Makes q s (bodyRequest c u) (u.called c vs call)

/-- The evaluation of the first request comes to the second in the bodies of the calls,
innermost first. Calls whose callee or arguments it stands in are not among them. -/
inductive Reaches : List Call → Request → State → Request → State → Prop where
  | here {q : Request} {s : State} : Reaches [] q s q s
  | child {calls : List Call} {q c p : Request} {s t w : State} :
      Asks q s c t → Reaches calls c t p w → Reaches calls q s p w
  | body {calls : List Call} {q p : Request} {s u w : State} {call : Call} {c : Closure}
      {vs : List Value} :
      Enters q s call c vs u → Reaches calls (bodyRequest c u) (u.called c vs call) p w →
      Reaches (calls ++ [call]) q s p w

theorem Asks.consequent {condition consequent alternative : Term} {l : Location} {f : FrameId}
    {s t : State} {v : Value} (hv : Evaluates condition f s.visit (.ok v) t) (h : v.Truthy) :
    Asks ⟨.conditional condition consequent alternative l, f⟩ s ⟨consequent, f⟩ t := by
  have hbranch : Asks ⟨.conditional condition consequent alternative l, f⟩ s
      ⟨if v.isTruthy then consequent else alternative, f⟩ t := .branch hv
  rwa [if_pos (Value.isTruthy_iff.mpr h)] at hbranch

theorem Asks.alternative {condition consequent alternative : Term} {l : Location} {f : FrameId}
    {s t : State} {v : Value} (hv : Evaluates condition f s.visit (.ok v) t) (h : ¬ v.Truthy) :
    Asks ⟨.conditional condition consequent alternative l, f⟩ s ⟨alternative, f⟩ t := by
  have hbranch : Asks ⟨.conditional condition consequent alternative l, f⟩ s
      ⟨if v.isTruthy then consequent else alternative, f⟩ t := .branch hv
  rwa [if_neg (mt Value.isTruthy_iff.mp h)] at hbranch

theorem Asks.frame_eq {q p : Request} {s t : State} (h : Asks q s p t) : p.frame = q.frame := by
  cases h <;> rfl

theorem Asks.mem_children {q p : Request} {s t : State} (h : Asks q s p t) :
    p.term ∈ q.term.children := by
  cases h with
  | @branch _ _ _ _ _ _ _ v _ => cases v.isTruthy <;> simp [Term.children]
  | _ => simp [Term.children]

theorem Asks.kind_ne_function {q p : Request} {s t : State} (h : Asks q s p t) :
    q.term.kind ≠ .function := by
  cases h <;> simp [Term.kind]

theorem Asks.stack_eq {q p : Request} {s t : State} (h : Asks q s p t) : t.stack = s.stack := by
  cases h with
  | bound | condition | lhs | printed | left | ofFirst | ofSecond | callee => rfl
  | next hv | branch hv | rhs hv | right hv => exact hv.stack_eq
  | argument hc hvs => exact hvs.stack_eq.trans hc.stack_eq

theorem Enters.stack_eq {q : Request} {s u : State} {call : Call} {c : Closure} {vs : List Value}
    (h : Enters q s call c vs u) : u.stack = s.stack := by
  cases h with
  | call hc hvs _ _ => exact hvs.stack_eq.trans hc.stack_eq

namespace Reaches

theorem trans {outer inner : List Call} {q p r : Request} {s t w : State}
    (h : Reaches outer q s p t) (h' : Reaches inner p t r w) :
    Reaches (inner ++ outer) q s r w := by
  induction h with
  | here => simpa using h'
  | child hask _ ih => exact .child hask (ih h')
  | body henter _ ih => simpa using Reaches.body henter (ih h')

theorem ask {calls : List Call} {q p r : Request} {s t w : State} (h : Reaches calls q s p t)
    (hask : Asks p t r w) : Reaches calls q s r w :=
  h.trans (.child hask .here)

theorem enter {calls : List Call} {q p : Request} {s t u : State} {call : Call} {c : Closure}
    {vs : List Value} (h : Reaches calls q s p t) (henter : Enters p t call c vs u) :
    Reaches (call :: calls) q s (bodyRequest c u) (u.called c vs call) :=
  h.trans (.body henter .here)

/-- The calls in progress are those before and the ones whose bodies were entered. -/
theorem stack_eq {calls : List Call} {q p : Request} {s w : State} (h : Reaches calls q s p w) :
    w.stack = calls.foldr (fun call stack => stack.enter call) s.stack := by
  induction h with
  | here => rfl
  | child hask _ ih => rw [ih, hask.stack_eq]
  | body henter _ ih => simp [ih, henter.stack_eq]

end Reaches

theorem EvaluatesAll.snoc {ts : List Term} {t : Term} {f : FrameId} {s u w : State}
    {vs : List Value} {v : Value} (hvs : EvaluatesAll ts f s (.ok vs) u)
    (hv : Evaluates t f u (.ok v) w) : EvaluatesAll (ts ++ [t]) f s (.ok (vs ++ [v])) w := by
  induction ts generalizing s vs with
  | nil =>
    cases hvs
    exact .cons hv .nil
  | cons head ts ih =>
    cases hvs with
    | cons hhead hvs => exact .cons hhead (ih hvs)

theorem EvaluatesAll.length_eq {ts : List Term} {f : FrameId} {s u : State} {vs : List Value}
    (h : EvaluatesAll ts f s (.ok vs) u) : vs.length = ts.length := by
  induction ts generalizing s vs with
  | nil =>
    cases h
    rfl
  | cons t ts ih =>
    cases h with
    | cons _ hvs => simp [ih hvs]

theorem demands_enterCall {callee : Term} {arguments : List Term} {l : Location} {f : FrameId}
    {s t u : State} {c : Closure} {vs : List Value}
    (hc : Evaluates callee f s.visit (.ok (.closure c)) t)
    (hvs : EvaluatesAll arguments f t (.ok vs) u) :
    (enterCall c vs ⟨calleeName callee, l⟩ u).Demands body
      (Makes ⟨.call callee arguments l, f⟩ s) := by
  apply enterCall_cases
  · intro _
    trivial
  · intro _ _ _
    trivial
  · intro h hroom
    refine ⟨.body (.call hc hvs h (CallStack.exhausted?_eq_none_iff.mp hroom)), ?_⟩
    intro r w _
    rw [leaveCall_eq]
    trivial

/-- A node makes no other request than for its children and for the body it calls. -/
theorem demands_body (q : Request) (s : State) : (body q s).Demands body (Makes q s) := by
  obtain ⟨term, f⟩ := q
  cases term with
  | int | str | bool | function => trivial
  | var name l =>
    cases h : s.store.lookup f name with
    | some v =>
      simp only [body, State.visit, h]
      trivial
    | none =>
      simp only [body, State.visit, h]
      trivial
  | binding name bound next l =>
    refine Plan.demands_ask (.child .bound) fun v t hv => ?_
    exact Makes.child (.next (yields_iff_evaluates.mp hv))
  | conditional condition consequent alternative l =>
    refine Plan.demands_ask (.child .condition) fun v t hv => ?_
    exact Makes.child (.branch (yields_iff_evaluates.mp hv))
  | binary op lhs rhs l =>
    refine Plan.demands_ask (.child .lhs) fun a t ha => ?_
    refine Plan.demands_ask (.child (.rhs (yields_iff_evaluates.mp ha))) fun b u _ => ?_
    cases op.apply a b <;> trivial
  | print printed l => exact Plan.demands_ask (.child .printed) fun v t _ => trivial
  | tuple left right l =>
    refine Plan.demands_ask (.child .left) fun a t ha => ?_
    exact Plan.demands_ask (.child (.right (yields_iff_evaluates.mp ha))) fun b u _ => trivial
  | first pair l =>
    refine Plan.demands_ask (.child .ofFirst) fun v t _ => ?_
    cases v <;> trivial
  | second pair l =>
    refine Plan.demands_ask (.child .ofSecond) fun v t _ => ?_
    cases v <;> trivial
  | call callee arguments l =>
    refine Plan.demands_ask (.child .callee) fun v t hv => ?_
    cases v with
    | closure c =>
      have hc := yields_iff_evaluates.mp hv
      -- The arguments evaluated so far stand before those that are left.
      refine Plan.demands_askAll (I := fun rest vs u => ∃ before, before ++ rest = arguments ∧
        EvaluatesAll before f t (.ok vs.reverse) u) ⟨[], rfl, .nil⟩ ?_ ?_ ?_
      · rintro head rest vs u ⟨before, rfl, hvs⟩
        exact .child (.argument hc hvs)
      · rintro head rest vs u a w ⟨before, rfl, hvs⟩ ha
        refine ⟨before ++ [head], by simp, ?_⟩
        simpa using hvs.snoc (yields_iff_evaluates.mp ha)
      · rintro vs u ⟨before, hbefore, hvs⟩
        rw [List.append_nil] at hbefore
        subst hbefore
        exact demands_enterCall hc hvs
    | _ => trivial

/-- At every moment of a run the plan in hand is what is left of a node that the evaluation
comes to, and the request it makes is for another such node. -/
theorem serves_of_advance_start {q : Request} {s : State} {fuel : Nat}
    {c : Plan.Config State Request Outcome}
    (h : Plan.advance body fuel (Plan.start q s) = .unfinished c) :
    c.plan.Serves body fun p w => ∃ calls, Reaches calls q s p w := by
  refine Plan.serves_of_advance ?_ ⟨[], .here⟩ h
  rintro p w ⟨calls, hp⟩
  refine (demands_body p w).imp fun r x hmade => ?_
  cases hmade with
  | child hask => exact ⟨calls, hp.ask hask⟩
  | body henter => exact ⟨_, hp.enter henter⟩

end TreeScript.Evaluation

import Mathlib.Data.Set.Defs
import TreeScript.Proofs.Evaluation.FailurePoint
import TreeScript.Proofs.Plan.Visits

/-!
The nodes that an evaluation visits, each with the state it is visited in, and those of them that
enter a call. A run visits the nodes that the evaluation comes to.
-/
namespace TreeScript

namespace Evaluation

/-- The nodes that the evaluation comes to, each with the state it is visited in. -/
def visited (q : Request) (s : State) : Set (Request × State) :=
  {x | ∃ calls, Reaches calls q s x.1 x.2}

/-- The node enters a call. -/
def EntersCall (x : Request × State) : Prop := ∃ call c vs u, Enters x.1 x.2 call c vs u

/-- The nodes that enter a call. -/
def entering (q : Request) (s : State) : Set (Request × State) :=
  {x | x ∈ visited q s ∧ EntersCall x}

/-- How many calls are in progress where a body starts, for each body that is entered. -/
def nestings (q : Request) (s : State) : Set Nat :=
  {n | ∃ x ∈ visited q s, ∃ call c vs u, Enters x.1 x.2 call c vs u ∧
    (u.called c vs call).stack.depth = n}

section Uniqueness
variable {callee : Term} {arguments : List Term} {l : Location} {f : FrameId} {s t u : State}
  {c : Closure}

theorem Evaluates.unique {t : Term} {r r' : Outcome} {u u' : State} (h : Evaluates t f s r u)
    (h' : Evaluates t f s r' u') : r = r' ∧ u = u' :=
  h.yields.unique h'.yields

theorem EvaluatesAll.yieldsAll {ts : List Term} {rs : Except Failure (List Value)}
    (h : EvaluatesAll ts f s rs u) :
    Plan.YieldsAll body (ts.map fun t => ⟨t, f⟩) s rs u := by
  induction ts generalizing s rs with
  | nil =>
    cases h
    exact .nil
  | cons t ts ih =>
    cases h with
    | cons hv hvs => exact .cons hv.yields (ih hvs)
    | headFails he => exact .head he.yields
    | tailFails hv he => exact .tail hv.yields (ih he)

theorem EvaluatesAll.unique {ts : List Term} {rs rs' : Except Failure (List Value)}
    {u u' : State} (h : EvaluatesAll ts f s rs u) (h' : EvaluatesAll ts f s rs' u') :
    rs = rs' ∧ u = u' :=
  h.yieldsAll.unique h'.yieldsAll

theorem EntersCall.kind_eq {q : Request} (h : EntersCall (q, s)) : q.term.kind = .call := by
  obtain ⟨call, c, vs, u, henters⟩ := h
  cases henters
  rfl

/-- Only a callee that comes to a closure is entered. -/
theorem EntersCall.closure {r : Outcome} (h : EntersCall (⟨.call callee arguments l, f⟩, s))
    (hr : Evaluates callee f s.visit r t) : ∃ c, r = .ok (.closure c) := by
  obtain ⟨call, c, vs, u, henters⟩ := h
  cases henters with
  | call hc _ _ _ => exact ⟨c, (hr.unique hc).1⟩

/-- Only a call with as many values as parameters is entered, and only below the limit. -/
theorem EntersCall.fits {rs : Except Failure (List Value)}
    (h : EntersCall (⟨.call callee arguments l, f⟩, s))
    (hc : Evaluates callee f s.visit (.ok (.closure c)) t)
    (hrs : EvaluatesAll arguments f t rs u) :
    (∃ vs, rs = .ok vs ∧ vs.length = c.parameters.length) ∧
      ∀ limit, u.stack.limit = some limit → u.stack.depth < limit := by
  obtain ⟨call, c', vs, u', henters⟩ := h
  cases henters with
  | call hc' hvs hlength hroom =>
    obtain ⟨hclosure, rfl⟩ := hc.unique hc'
    cases hclosure
    obtain ⟨rfl, rfl⟩ := hrs.unique hvs
    exact ⟨⟨vs, rfl, hlength⟩, hroom⟩

/-- A node whose own step fails enters no call. Calls that are refused are among these nodes. -/
theorem Raises.not_entersCall {q : Request} {e : Failure} (h : Raises q s e) :
    ¬ EntersCall (q, s) := by
  intro henters
  cases h with
  | undefined | operation | firstOfOther | secondOfOther =>
    obtain ⟨call, c, vs, u, henters⟩ := henters
    cases henters
  | notCallable hv hkind =>
    obtain ⟨c, hc⟩ := henters.closure hv
    cases hc
    exact hkind rfl
  | wrongArity hc hvs hlength =>
    obtain ⟨⟨vs, hvs, hfits⟩, -⟩ := henters.fits hc hvs
    cases hvs
    exact hlength hfits
  | refused hc hvs _ hlimit hdepth =>
    exact absurd ((henters.fits hc hvs).2 _ hlimit) (Nat.not_lt.mpr hdepth)

theorem Enters.depth_called {q : Request} {vs : List Value} {call : Call}
    (h : Enters q s call c vs u) : (u.called c vs call).stack.depth = s.stack.depth + 1 := by
  simp [h.stack_eq]

end Uniqueness

section Positions
variable {q p : Request} {s t u w : State}

theorem Asks.issues (h : Asks q s p t) : Plan.Issues body (body q s) p t := by
  cases h with
  | bound | condition | lhs | printed | left | ofFirst | ofSecond | callee => exact .call
  | next hv | branch hv => exact .later hv.yields .jump
  | rhs ha | right ha => exact .later ha.yields .call
  | argument hc hvs =>
    exact .later hc.yields (Plan.issues_askAll (List.map_append ..) hvs.yieldsAll)

theorem Enters.issues {call : Call} {c : Closure} {vs : List Value}
    (h : Enters q s call c vs u) :
    Plan.Issues body (body q s) (bodyRequest c u) (u.called c vs call) := by
  cases h with
  | call hc hvs hlength hroom =>
    refine .later hc.yields (Plan.issues_after_askAll hvs.yieldsAll ?_)
    simp only [List.reverse_nil, List.nil_append]
    rw [enterCall_of_room _ _ _ _ hlength (CallStack.exhausted?_eq_none_iff.mpr hroom)]
    exact .call

theorem mem_log_of_reaches {calls : List Call} {log : List (Request × State)} {r : Outcome}
    (hlog : Plan.Visits body (body q s) log r u) (h : Reaches calls q s p w) :
    (p, w) ∈ (q, s) :: log := by
  induction h generalizing log r u with
  | here => exact List.mem_cons_self
  | child hask _ ih =>
    obtain ⟨inner, b, v, hinner, hmem⟩ := hlog.of_issues hask.issues
    exact List.mem_cons_of_mem _ (hmem _ (ih hinner))
  | body henters _ ih =>
    obtain ⟨inner, b, v, hinner, hmem⟩ := hlog.of_issues henters.issues
    exact List.mem_cons_of_mem _ (hmem _ (ih hinner))

/-- A run visits the nodes that the evaluation comes to. -/
theorem mem_visited_iff {log : List (Request × State)} {r : Outcome}
    (h : Plan.Visits body (.jump q s) log r u) {x : Request × State} :
    x ∈ log ↔ x ∈ visited q s := by
  constructor
  · have hdemands : ∀ p w, (p, w) ∈ visited q s →
        (body p w).Demands body fun p w => (p, w) ∈ visited q s := by
      rintro p w ⟨calls, hp⟩
      refine (demands_body p w).imp fun r x hmade => ?_
      cases hmade with
      | child hask => exact ⟨calls, hp.ask hask⟩
      | body henter => exact ⟨_, hp.enter henter⟩
    have hstart : (q, s) ∈ visited q s := ⟨[], .here⟩
    exact h.forall_mem hdemands hstart x
  · rintro ⟨calls, hx⟩
    cases h with
    | jump h => exact mem_log_of_reaches h hx

end Positions

end Evaluation

end TreeScript

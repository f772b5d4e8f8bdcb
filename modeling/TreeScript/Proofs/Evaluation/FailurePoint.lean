import TreeScript.Proofs.Evaluation.Positions
import TreeScript.Proofs.Operation

/-!
Where an evaluation fails. An evaluation fails exactly when it comes to a node whose own step
fails, and its failure is the one that this node raises: on its way out it is given the calls
in progress at the node, and nothing else.
-/
namespace TreeScript

namespace CallStack

theorem message_attach (s : CallStack) (e : Failure) : (s.attach e).message = e.message := by
  unfold attach
  split <;> rfl

theorem location_attach (s : CallStack) (e : Failure) : (s.attach e).location = e.location := by
  unfold attach
  split <;> rfl

theorem notes_attach (s : CallStack) (e : Failure) : (s.attach e).notes = e.notes := by
  unfold attach
  split <;> rfl

theorem attach_attach (s : CallStack) (e : Failure) : s.attach (s.attach e) = s.attach e := by
  by_cases h : s.isEmpty || e.backtrace.isSome
  · simp [attach, h]
  · rw [attach_of_isSome]
    simp [attach, h, Failure.withBacktrace]

theorem isSome_backtrace_attach {s : CallStack} (h : 0 < s.depth) (e : Failure) :
    (s.attach e).backtrace.isSome = true := by
  cases he : e.backtrace with
  | none => rw [attach_of_depth_pos h he]; rfl
  | some b =>
    have hsome : e.backtrace.isSome = true := by simp [he]
    rwa [attach_of_isSome hsome]

theorem capture_enterAll (s : CallStack) (calls : List Call) :
    (calls.foldr (fun call stack => stack.enter call) s).capture =
      ⟨calls ++ s.capture.calls⟩ := by
  induction calls with
  | nil => rfl
  | cons call calls ih => simpa [capture, enter] using ih

end CallStack

namespace Evaluation

/-- The node's own step fails: what it asks for has come to values, and it has none for them. -/
inductive Raises : Request → State → Failure → Prop where
  | undefined {name : String} {l : Location} {f : FrameId} {s : State} :
      s.store.lookup f name = none →
      Raises ⟨.var name l, f⟩ s (.raised (.undefinedVariable name) l)
  | operation {op : Operator} {lhs rhs : Term} {l : Location} {f : FrameId} {s t u : State}
      {a b : Value} {e : Failure} :
      Evaluates lhs f s.visit (.ok a) t → Evaluates rhs f t (.ok b) u → op.apply a b = .error e →
      Raises ⟨.binary op lhs rhs l, f⟩ s (e.located l)
  | firstOfOther {pair : Term} {l : Location} {f : FrameId} {s t : State} {v : Value} :
      Evaluates pair f s.visit (.ok v) t → v.kind ≠ .tuple →
      Raises ⟨.first pair l, f⟩ s (.raised (.typeMismatch .tuple v.kind) l)
  | secondOfOther {pair : Term} {l : Location} {f : FrameId} {s t : State} {v : Value} :
      Evaluates pair f s.visit (.ok v) t → v.kind ≠ .tuple →
      Raises ⟨.second pair l, f⟩ s (.raised (.typeMismatch .tuple v.kind) l)
  | notCallable {callee : Term} {arguments : List Term} {l : Location} {f : FrameId} {s t : State}
      {v : Value} : Evaluates callee f s.visit (.ok v) t → v.kind ≠ .closure →
      Raises ⟨.call callee arguments l, f⟩ s (.raised (.notCallable v.kind) l)
  | wrongArity {callee : Term} {arguments : List Term} {l : Location} {f : FrameId}
      {s t u : State} {c : Closure} {vs : List Value} :
      Evaluates callee f s.visit (.ok (.closure c)) t → EvaluatesAll arguments f t (.ok vs) u →
      vs.length ≠ c.parameters.length →
      Raises ⟨.call callee arguments l, f⟩ s
        { Failure.raised (.arityMismatch c.parameters.length vs.length) l with
          notes := [⟨"function defined here", c.location⟩] }
  | refused {callee : Term} {arguments : List Term} {l : Location} {f : FrameId} {s t u : State}
      {c : Closure} {vs : List Value} {limit : Nat} :
      Evaluates callee f s.visit (.ok (.closure c)) t → EvaluatesAll arguments f t (.ok vs) u →
      vs.length = c.parameters.length → u.stack.limit = some limit → limit ≤ u.stack.depth →
      Raises ⟨.call callee arguments l, f⟩ s (.raised (.stackOverflow limit) l)

/-- The evaluation of `q` comes, in the bodies of the calls, to the node of `p`, and the own
step of this node fails. All that is evaluated before it has come to values. -/
def FailsAt (q : Request) (s : State) (calls : List Call) (p : Request) (w : State)
    (e : Failure) : Prop :=
  Reaches calls q s p w ∧ Raises p w e

/-- The evaluation fails somewhere. -/
def Fails (q : Request) (s : State) : Prop := ∃ calls p w e, FailsAt q s calls p w e

theorem Raises.fails {q : Request} {s : State} {e : Failure} (h : Raises q s e) : Fails q s :=
  ⟨[], q, s, e, .here, h⟩

theorem Asks.fails {q c : Request} {s t : State} (hask : Asks q s c t) (h : Fails c t) :
    Fails q s := by
  obtain ⟨calls, p, w, e, hreaches, hraises⟩ := h
  exact ⟨calls, p, w, e, .child hask hreaches, hraises⟩

theorem Enters.fails {q : Request} {s u : State} {call : Call} {c : Closure} {vs : List Value}
    (henter : Enters q s call c vs u) (h : Fails (bodyRequest c u) (u.called c vs call)) :
    Fails q s := by
  obtain ⟨calls, p, w, e, hreaches, hraises⟩ := h
  exact ⟨calls ++ [call], p, w, e, .body henter hreaches, hraises⟩

/-- One of the terms fails, and those before it come to values. -/
def FailsAmong (ts : List Term) (f : FrameId) (s : State) : Prop :=
  ∃ before t after vs u, ts = before ++ t :: after ∧ EvaluatesAll before f s (.ok vs) u ∧
    Fails ⟨t, f⟩ u

theorem FailsAmong.head {t : Term} {ts : List Term} {f : FrameId} {s : State}
    (h : Fails ⟨t, f⟩ s) : FailsAmong (t :: ts) f s :=
  ⟨[], t, ts, [], s, rfl, .nil, h⟩

theorem FailsAmong.tail {t : Term} {ts : List Term} {f : FrameId} {s u : State} {v : Value}
    (hv : Evaluates t f s (.ok v) u) (h : FailsAmong ts f u) : FailsAmong (t :: ts) f s := by
  obtain ⟨before, c, after, vs, w, rfl, hvs, hc⟩ := h
  exact ⟨t :: before, c, after, v :: vs, w, rfl, .cons hv hvs, hc⟩

theorem FailsAmong.arguments {callee : Term} {arguments : List Term} {l : Location} {f : FrameId}
    {s t : State} {c : Closure} (hc : Evaluates callee f s.visit (.ok (.closure c)) t)
    (h : FailsAmong arguments f t) : Fails ⟨.call callee arguments l, f⟩ s := by
  obtain ⟨before, argument, after, vs, u, rfl, hvs, hfails⟩ := h
  exact (Asks.argument hc hvs).fails hfails

/-- An evaluation that ends in a failure fails at some node. -/
theorem Evaluates.fails {t : Term} {f : FrameId} {s u : State} {r : Outcome}
    (h : Evaluates t f s r u) : ∀ e, r = .error e → Fails ⟨t, f⟩ s := by
  induction h using @Evaluates.rec _ fun ts f s rs _ _ => ∀ e, rs = .error e → FailsAmong ts f s
    with
  | int | str | bool | var | function | binary | print | tuple | first | second | call =>
    rintro e ⟨⟩
  | undefined h => exact fun _ _ => (Raises.undefined (Store.lookup_eq_none_iff.mpr h)).fails
  | dividesByZero ha hb h _ _ =>
    have hop := Operator.apply_eq_error_iff.mpr (.inl ⟨rfl, h⟩)
    exact fun _ _ => (Raises.operation ha hb hop).fails
  | misfits ha hb h _ _ =>
    have hop := Operator.apply_eq_error_iff.mpr (.inr ⟨rfl, h⟩)
    exact fun _ _ => (Raises.operation ha hb hop).fails
  | firstOfOther hv hk _ => exact fun _ _ => (Raises.firstOfOther hv hk).fails
  | secondOfOther hv hk _ => exact fun _ _ => (Raises.secondOfOther hv hk).fails
  | notCallable hv hk _ => exact fun _ _ => (Raises.notCallable hv hk).fails
  | wrongArity hc hvs h _ _ => exact fun _ _ => (Raises.wrongArity hc hvs h).fails
  | refused hc hvs h hlimit hdepth _ _ =>
    exact fun _ _ => (Raises.refused hc hvs h hlimit hdepth).fails
  | binding hv hbinds _ _ ihr =>
    rw [Store.binds_iff.mp hbinds] at ihr
    exact fun e he => (Asks.next hv).fails (ihr e he)
  | consequent hv h _ _ ihr => exact fun e he => (Asks.consequent hv h).fails (ihr e he)
  | alternative hv h _ _ ihr => exact fun e he => (Asks.alternative hv h).fails (ihr e he)
  | boundFails _ ihe => exact fun e he => Asks.bound.fails (ihe e he)
  | conditionFails _ ihe => exact fun e he => Asks.condition.fails (ihe e he)
  | lhsFails _ ihe => exact fun e he => Asks.lhs.fails (ihe e he)
  | rhsFails ha _ _ ihe => exact fun e he => (Asks.rhs ha).fails (ihe e he)
  | printedFails _ ihe => exact fun e he => Asks.printed.fails (ihe e he)
  | leftFails _ ihe => exact fun e he => Asks.left.fails (ihe e he)
  | rightFails ha _ _ ihe => exact fun e he => (Asks.right ha).fails (ihe e he)
  | firstFails _ ihe => exact fun e he => Asks.ofFirst.fails (ihe e he)
  | secondFails _ ihe => exact fun e he => Asks.ofSecond.fails (ihe e he)
  | calleeFails _ ihe => exact fun e he => Asks.callee.fails (ihe e he)
  | argumentFails hc _ _ ihe => exact fun e he => (ihe _ rfl).arguments hc
  | bodyFails hc hvs h hroom hname hopens _ _ _ ihbody =>
    rw [State.within_eq_called h hopens, calledAs_iff.mp hname] at ihbody
    exact fun _ _ => (Enters.call hc hvs h hroom).fails (ihbody _ rfl)
  | nil | cons => contradiction
  | headFails _ ihe => exact .head (ihe _ rfl)
  | tailFails hv _ _ ihe => exact .tail hv (ihe _ rfl)

/-- What the node raises is what it answers, with the calls in progress if it is refused. -/
theorem Raises.evaluates {q : Request} {s : State} {e : Failure} (h : Raises q s e) :
    ∃ d u, Evaluates q.term q.frame s (.error d) u ∧ (d = e ∨ d = s.stack.attach e) := by
  cases h with
  | undefined h => exact ⟨_, _, .undefined (Store.lookup_eq_none_iff.mp h), .inl rfl⟩
  | @operation op lhs rhs l f s t u a b e ha hb hop =>
    have h : Evaluates (.binary op lhs rhs l) f s
      ((op.apply a b).mapError fun e => e.located l) u := .operation ha hb
    rw [hop] at h
    exact ⟨_, _, h, .inl rfl⟩
  | firstOfOther hv hk => exact ⟨_, _, .firstOfOther hv hk, .inl rfl⟩
  | secondOfOther hv hk => exact ⟨_, _, .secondOfOther hv hk, .inl rfl⟩
  | notCallable hv hk => exact ⟨_, _, .notCallable hv hk, .inl rfl⟩
  | wrongArity hc hvs h => exact ⟨_, _, .wrongArity hc hvs h, .inl rfl⟩
  | refused hc hvs h hlimit hdepth =>
    refine ⟨_, _, .refused hc hvs h hlimit hdepth, .inr ?_⟩
    rw [← CallStack.attach_raised, hvs.stack_eq, hc.stack_eq]
    rfl

theorem EvaluatesAll.error {before after : List Term} {argument : Term} {f : FrameId}
    {s t u : State} {vs : List Value} {e : Failure} (hvs : EvaluatesAll before f s (.ok vs) t)
    (he : Evaluates argument f t (.error e) u) :
    EvaluatesAll (before ++ argument :: after) f s (.error e) u := by
  induction before generalizing s vs with
  | nil =>
    cases hvs
    exact .headFails he
  | cons head before ih =>
    cases hvs with
    | cons hhead hvs => exact .tailFails hhead (ih hvs)

/-- The failure of a child is the failure of the node. -/
theorem Asks.error {q c : Request} {s t u : State} {e : Failure} (h : Asks q s c t)
    (he : Evaluates c.term c.frame t (.error e) u) : Evaluates q.term q.frame s (.error e) u := by
  cases h with
  | bound => exact .boundFails he
  | next hv => exact .binding_bind hv he
  | condition => exact .conditionFails he
  | branch hv => exact .conditional hv he
  | lhs => exact .lhsFails he
  | rhs ha => exact .rhsFails ha he
  | printed => exact .printedFails he
  | left => exact .leftFails he
  | right ha => exact .rightFails ha he
  | ofFirst => exact .firstFails he
  | ofSecond => exact .secondFails he
  | callee => exact .calleeFails he
  | argument hc hvs => exact .argumentFails hc (hvs.error he)

/-- The failure of a body is the failure of the call, with the calls in progress in the body. -/
theorem Enters.error {q : Request} {s u w : State} {call : Call} {c : Closure} {vs : List Value}
    {e : Failure} (h : Enters q s call c vs u)
    (he : Evaluates c.body ⟨u.store.frames.size⟩ (u.called c vs call) (.error e) w) :
    Evaluates q.term q.frame s (.error ((u.stack.enter call).attach e)) w.leave := by
  cases h with
  | call hc hvs h hroom =>
    have hcall := Evaluates.called hc hvs h hroom he
    rwa [he.stack_eq] at hcall

/-- A failure leaves the bodies it happened in with the calls in progress where it happened,
however many there are. -/
theorem Reaches.error {calls : List Call} {q p : Request} {s w x : State} {e : Failure}
    (h : Reaches calls q s p w) (he : Evaluates p.term p.frame w (.error e) x) :
    ∃ u, Evaluates q.term q.frame s
      (.error (if calls = [] then e else w.stack.attach e)) u := by
  induction h with
  | here => exact ⟨x, he⟩
  | child hask _ ih =>
    obtain ⟨u, hu⟩ := ih he
    exact ⟨u, hask.error hu⟩
  | @body calls q p s u w call c vs henter hreaches ih =>
    obtain ⟨y, hy⟩ := ih he
    have hcall := henter.error hy
    have hstack := hreaches.stack_eq
    rw [if_neg (by simp)]
    cases calls with
    | nil =>
      rw [if_pos rfl] at hcall
      rw [hstack]
      exact ⟨_, hcall⟩
    | cons inner calls =>
      -- The failure has the calls of a body further inside, and keeps them.
      have hdepth : 0 < w.stack.depth := by simp [hstack]
      rw [if_neg (by simp),
        CallStack.attach_of_isSome (CallStack.isSome_backtrace_attach hdepth e)] at hcall
      exact ⟨_, hcall⟩

/-- The failure of an evaluation is what any node raises at which it fails. If a call was in
progress there, it carries the calls in progress. -/
theorem FailsAt.error {q p : Request} {s w u : State} {calls : List Call} {e d : Failure}
    (h : FailsAt q s calls p w d) (he : Evaluates q.term q.frame s (.error e) u) :
    e = w.stack.attach d ∨ calls = [] ∧ e = d := by
  obtain ⟨hreaches, hraises⟩ := h
  obtain ⟨e', x, he', hcases⟩ := hraises.evaluates
  obtain ⟨y, hy⟩ := hreaches.error he'
  have heq := (he.yields.unique hy.yields).1
  rw [Except.error.injEq] at heq
  subst heq
  by_cases hcalls : calls = []
  · rw [if_pos hcalls]
    rcases hcases with rfl | rfl
    · exact .inr ⟨hcalls, rfl⟩
    · exact .inl rfl
  · rw [if_neg hcalls]
    rcases hcases with rfl | rfl
    · exact .inl rfl
    · exact .inl (CallStack.attach_attach _ _)

end Evaluation

end TreeScript

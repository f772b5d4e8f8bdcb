import TreeScript.Proofs.Evaluation.Balance

/-!
The plain recursive meaning of terms is what an evaluation does. What the rules say of frames,
text, calls and counters is what the evaluation does to them. Main statement: an evaluation returns
a result and leaves a state exactly when the rules derive them.
-/
namespace TreeScript

namespace CallStack

/-- A failure that leaves a body has the calls of a body further inside, or else this one and
those in progress around it. -/
theorem attach_enter (s : CallStack) (call : Call) (e : Failure) :
    (s.enter call).attach e =
      { e with backtrace := e.backtrace.or (some ⟨call :: s.calls.toList.reverse⟩) } := by
  cases h : e.backtrace with
  | some b =>
    rw [attach_of_isSome (by simp [h]), Option.some_or, ← h]
  | none =>
    rw [attach_of_depth_pos (by simp) h]
    simp [Failure.withBacktrace, capture, enter]

theorem attach_raised (s : CallStack) (cause : Failure.Cause) (l : Location) :
    s.attach (.raised cause l) = { Failure.raised cause l with
      backtrace := if s.calls = #[] then none else some ⟨s.calls.toList.reverse⟩ } := by
  by_cases h : s.calls = #[]
  · rw [attach_of_depth_zero (by simp [depth, h]), if_pos h]
    rfl
  · have hdepth : 0 < s.depth := by simpa [depth, Array.size_pos_iff] using h
    rw [attach_of_depth_pos hdepth rfl, if_neg h]
    rfl

end CallStack

namespace Evaluation

section Effects
variable {s u w : State} {c : Closure} {vs : List Value} {call : Call} {store : Store}

theorem calledAs_iff {callee : Term} {name : String} :
    CalledAs callee name ↔ name = calleeName callee := by
  constructor
  · intro h
    cases h with
    | var name l => rfl
    | @other callee h =>
      cases callee with
      | var name l => exact absurd rfl h
      | _ => rfl
  · rintro rfl
    cases callee with
    | var name l => exact .var name l
    | _ => exact .other (by simp [Term.kind])

theorem State.print_eq (s : State) (v : Value) :
    s.print v = { s with printer := s.printer.receive (v.text ++ "\n") } := by
  rw [State.print, Printer.println_eq_receive, Value.display_eq_text]

theorem State.within_eq_called (hlength : vs.length = c.parameters.length)
    (hopens : u.store.Opens c.frame c.parameters vs store) :
    u.within call store = u.called c vs call := by
  rw [(Store.opens_iff hlength).mp hopens]
  rfl

theorem State.leave_eq (h : w.stack = u.stack.enter call) :
    w.leave = { w with stack := u.stack } := by
  rw [State.leave, h, CallStack.pop_enter]

end Effects

section Rules
variable {l : Location} {f : FrameId} {s t u w : State}

theorem Evaluates.binding_bind {name : Parameter} {bound next : Term} {v : Value} {r : Outcome}
    (hv : Evaluates bound f s.counted (.ok v) t)
    (hr : Evaluates next f (t.bind f name.text v) r u) :
    Evaluates (.binding name bound next l) f s r u :=
  .binding hv (Store.binds_bind ..) hr

theorem Evaluates.conditional {condition consequent alternative : Term} {v : Value} {r : Outcome}
    (hv : Evaluates condition f s.counted (.ok v) t)
    (hr : Evaluates (if v.isTruthy then consequent else alternative) f t r u) :
    Evaluates (.conditional condition consequent alternative l) f s r u := by
  by_cases h : v.isTruthy = true
  · rw [if_pos h] at hr
    exact .consequent hv (Value.isTruthy_iff.mp h) hr
  · rw [if_neg h] at hr
    exact .alternative hv (mt Value.isTruthy_iff.mpr h) hr

theorem Evaluates.operation {op : Operator} {lhs rhs : Term} {a b : Value}
    (ha : Evaluates lhs f s.counted (.ok a) t) (hb : Evaluates rhs f t (.ok b) u) :
    Evaluates (.binary op lhs rhs l) f s ((op.apply a b).mapError fun e => e.located l) u := by
  cases h : op.apply a b with
  | ok v => exact .binary ha hb (Operator.apply_eq_ok_iff.mp h)
  | error e =>
    rcases Operator.apply_eq_error_iff.mp h with ⟨rfl, hzero⟩ | ⟨rfl, hkinds⟩
    · exact .dividesByZero ha hb hzero
    · exact .misfits ha hb hkinds

/-- A call that is not refused, as its body is entered and left. -/
theorem Evaluates.called {callee : Term} {arguments : List Term} {c : Closure} {vs : List Value}
    {r : Outcome} (hc : Evaluates callee f s.counted (.ok (.closure c)) t)
    (hvs : EvaluatesAll arguments f t (.ok vs) u) (h : vs.length = c.parameters.length)
    (hroom : ∀ limit, u.stack.limit = some limit → u.stack.depth < limit)
    (hbody : Evaluates c.body ⟨u.store.frames.size⟩ (u.called c vs ⟨calleeName callee, l⟩) r w) :
    Evaluates (.call callee arguments l) f s (r.mapError w.stack.attach) w.leave := by
  have hname : CalledAs callee (calleeName callee) := calledAs_iff.mpr rfl
  have hopens : u.store.Opens c.frame c.parameters vs
      (u.store.newChild c.frame c.parameters vs).2 := (Store.opens_iff h).mpr rfl
  have hstack : w.stack = u.stack.enter ⟨calleeName callee, l⟩ := hbody.stack_eq
  rw [← State.within_eq_called h hopens] at hbody
  rw [State.leave_eq hstack, hstack]
  cases r with
  | ok v => exact .call hc hvs h hroom hname hopens hbody
  | error e =>
    have hfails := Evaluates.bodyFails hc hvs h hroom hname hopens hbody
    rwa [← CallStack.attach_enter] at hfails

end Rules

theorem EvaluatesAll.append {ts : List Term} {f : FrameId} {s t u : State} {v : Value}
    {r : Except Failure (List Value)} {head : Term} (hv : Evaluates head f s (.ok v) t)
    (h : EvaluatesAll ts f t r u) :
    EvaluatesAll (head :: ts) f s (r.map fun vs => v :: vs) u := by
  cases r with
  | ok vs => exact .cons hv h
  | error e => exact .tailFails hv h

theorem evaluates_enterCall {callee : Term} {arguments : List Term} {l : Location} {f : FrameId}
    {s t u : State} {c : Closure} {vs : List Value}
    (hc : Evaluates callee f s.counted (.ok (.closure c)) t)
    (hvs : EvaluatesAll arguments f t (.ok vs) u) :
    (enterCall c vs ⟨calleeName callee, l⟩ u).Ensures
      (Plan.Met body fun q s r u => Evaluates q.term q.frame s r u)
      (Evaluates (.call callee arguments l) f s) := by
  apply enterCall_cases
  · intro h
    exact .wrongArity hc hvs h
  · intro limit h hs
    obtain ⟨hlimit, hdepth⟩ := CallStack.exhausted?_eq_some_iff.mp hs
    have hrefused := Evaluates.refused (l := l) hc hvs h hlimit hdepth
    rwa [← CallStack.attach_raised] at hrefused
  · intro h hs
    apply Plan.ensures_call
    intro r w hbody _
    rw [leaveCall_eq]
    exact .called hc hvs h (CallStack.exhausted?_eq_none_iff.mp hs) hbody

/-- What the body of a node does is derived if what it asks for is. -/
theorem evaluates_body (q : Request) (s : State) :
    (body q s).Ensures (Plan.Met body fun q s r u => Evaluates q.term q.frame s r u)
      (Evaluates q.term q.frame s) := by
  obtain ⟨term, f⟩ := q
  cases term with
  | int n l => exact .int
  | str text l => exact .str
  | bool b l => exact .bool
  | var name l =>
    cases h : s.store.lookup f name with
    | some v =>
      simp only [body, State.visit, h]
      exact .var (Store.lookup_eq_some_iff.mp h)
    | none =>
      simp only [body, State.visit, h]
      exact .undefined (Store.lookup_eq_none_iff.mp h)
  | binding name bound next l =>
    apply Plan.ensures_ask
    · intro v t hv _
      apply Plan.ensures_jump
      intro r u hr _
      exact .binding_bind hv hr
    · intro e t he _
      exact .boundFails he
  | conditional condition consequent alternative l =>
    apply Plan.ensures_ask
    · intro v t hv _
      apply Plan.ensures_jump
      intro r u hr _
      exact .conditional hv hr
    · intro e t he _
      exact .conditionFails he
  | binary op lhs rhs l =>
    apply Plan.ensures_ask
    · intro a t ha _
      apply Plan.ensures_ask
      · intro b u hb _
        have h : Evaluates (.binary op lhs rhs l) f s
            ((op.apply a b).mapError fun e => e.located l) u := .operation ha hb
        cases hop : op.apply a b with
        | ok v =>
          simp only [hop] at h ⊢
          exact h
        | error e =>
          simp only [hop] at h ⊢
          exact h
      · intro e u he _
        exact .rhsFails ha he
    · intro e t he _
      exact .lhsFails he
  | print printed l =>
    apply Plan.ensures_ask
    · intro v t hv _
      have hprint := Evaluates.print (l := l) hv
      rw [← State.print_eq] at hprint
      exact hprint
    · intro e t he _
      exact .printedFails he
  | tuple left right l =>
    apply Plan.ensures_ask
    · intro a t ha _
      apply Plan.ensures_ask
      · intro b u hb _
        exact .tuple ha hb
      · intro e u he _
        exact .rightFails ha he
    · intro e t he _
      exact .leftFails he
  | first pair l =>
    apply Plan.ensures_ask
    · intro v t hv _
      cases v with
      | tuple a b => exact .first hv
      | _ => exact .firstOfOther hv (by simp [Value.kind])
    · intro e t he _
      exact .firstFails he
  | second pair l =>
    apply Plan.ensures_ask
    · intro v t hv _
      cases v with
      | tuple a b => exact .second hv
      | _ => exact .secondOfOther hv (by simp [Value.kind])
    · intro e t he _
      exact .secondFails he
  | function parameters functionBody l => exact .function
  | call callee arguments l =>
    apply Plan.ensures_ask
    · intro v t hv _
      cases v with
      | closure c =>
        -- The arguments evaluated so far stand before whatever becomes of the others.
        refine Plan.ensures_askAll (I := fun rest vs u => ∀ r w, EvaluatesAll rest f u r w →
          EvaluatesAll arguments f t (r.map fun ws => vs.reverse ++ ws) w) ?_ ?_ ?_ ?_
        · intro r w h
          cases r with
          | ok ws => exact h
          | error e => exact h
        · intro head rest vs u a w hI ha _ r x hr
          have h := hI _ _ (hr.append ha)
          cases r with
          | ok ws => simpa [Except.map] using h
          | error e => exact h
        · intro head rest vs u e w hI he _
          exact .argumentFails hv (hI _ _ (.headFails he))
        · intro vs u hI
          have hvs := hI _ _ .nil
          simp only [Except.map, List.append_nil] at hvs
          exact evaluates_enterCall hv hvs
      | _ => exact .notCallable hv (by simp [Value.kind])
    · intro e t he _
      exact .calleeFails he

theorem yields_enterCall {u w : State} {c : Closure} {vs : List Value} {call : Call} {r : Outcome}
    (h : vs.length = c.arity) (hroom : ∀ limit, u.stack.limit = some limit → u.stack.depth < limit)
    (hbody : Plan.Yields body (body ⟨c.body, ⟨u.store.frames.size⟩⟩ (u.called c vs call)) r w) :
    Plan.Yields body (enterCall c vs call u) (r.mapError w.stack.attach) w.leave := by
  rw [enterCall_of_room c vs call u h (CallStack.exhausted?_eq_none_iff.mpr hroom)]
  refine .call hbody ?_
  rw [leaveCall_eq]
  exact .answer _ _

/-- A body that is entered and left as the rules say is entered and left as a call is. -/
theorem yields_of_within {callee : Term} {u w : State} {c : Closure} {vs : List Value}
    {name : String} {l : Location} {store : Store} {r : Outcome}
    (h : vs.length = c.parameters.length)
    (hroom : ∀ limit, u.stack.limit = some limit → u.stack.depth < limit)
    (hname : CalledAs callee name) (hopens : u.store.Opens c.frame c.parameters vs store)
    (hstack : w.stack = (u.within ⟨name, l⟩ store).stack)
    (hbody : Plan.Yields body
      (body ⟨c.body, ⟨u.store.frames.size⟩⟩ (u.within ⟨name, l⟩ store)) r w) :
    Plan.Yields body (enterCall c vs ⟨calleeName callee, l⟩ u)
      (r.mapError (u.stack.enter ⟨name, l⟩).attach) { w with stack := u.stack } := by
  have hcall : w.stack = u.stack.enter ⟨name, l⟩ := hstack
  rw [State.within_eq_called h hopens, calledAs_iff.mp hname] at hbody
  rw [← State.leave_eq hcall, ← hcall]
  exact yields_enterCall h hroom hbody

/-- What the rules derive is what the body of the node yields. -/
theorem Evaluates.yields {t : Term} {f : FrameId} {s u : State} {r : Outcome}
    (h : Evaluates t f s r u) : Plan.Yields body (body ⟨t, f⟩ s) r u := by
  induction h using @Evaluates.rec _ fun ts f s r u _ =>
    Plan.YieldsAll body (ts.map fun t => ⟨t, f⟩) s r u with
  | int => exact .answer _ _
  | str => exact .answer _ _
  | bool => exact .answer _ _
  | var h =>
    simp only [body, State.visit, Store.lookup_eq_some_iff.mpr h]
    exact .answer _ _
  | undefined h =>
    simp only [body, State.visit, Store.lookup_eq_none_iff.mpr h]
    exact .answer _ _
  | function => exact .answer _ _
  | binding _ hbinds _ ihv ihr =>
    rw [Store.binds_iff.mp hbinds] at ihr
    exact .ask_ok ihv (.jump ihr)
  | boundFails _ ihe => exact .ask_error ihe
  | consequent _ htrue _ ihv ihr =>
    refine .ask_ok ihv (.jump ?_)
    rwa [if_pos (Value.isTruthy_iff.mpr htrue)]
  | alternative _ hfalse _ ihv ihr =>
    refine .ask_ok ihv (.jump ?_)
    rwa [if_neg (mt Value.isTruthy_iff.mp hfalse)]
  | conditionFails _ ihe => exact .ask_error ihe
  | binary _ _ h iha ihb =>
    refine .ask_ok iha (.ask_ok ihb ?_)
    rw [Operator.apply_eq_ok_iff.mpr h]
    exact .answer _ _
  | dividesByZero _ _ h iha ihb =>
    refine .ask_ok iha (.ask_ok ihb ?_)
    rw [Operator.apply_eq_error_iff.mpr (.inl ⟨rfl, h⟩)]
    exact .answer _ _
  | misfits _ _ h iha ihb =>
    refine .ask_ok iha (.ask_ok ihb ?_)
    rw [Operator.apply_eq_error_iff.mpr (.inr ⟨rfl, h⟩)]
    exact .answer _ _
  | lhsFails _ ihe => exact .ask_error ihe
  | rhsFails _ _ iha ihe => exact .ask_ok iha (.ask_error ihe)
  | print _ ihv =>
    rw [← State.print_eq]
    exact .ask_ok ihv (.answer _ _)
  | printedFails _ ihe => exact .ask_error ihe
  | tuple _ _ iha ihb => exact .ask_ok iha (.ask_ok ihb (.answer _ _))
  | leftFails _ ihe => exact .ask_error ihe
  | rightFails _ _ iha ihe => exact .ask_ok iha (.ask_error ihe)
  | first _ ihv => exact .ask_ok ihv (.answer _ _)
  | @firstOfOther pair l f s t v _ hk ihv =>
    refine .ask_ok ihv ?_
    cases v with
    | tuple a b => exact absurd rfl hk
    | _ => exact .answer _ _
  | firstFails _ ihe => exact .ask_error ihe
  | second _ ihv => exact .ask_ok ihv (.answer _ _)
  | @secondOfOther pair l f s t v _ hk ihv =>
    refine .ask_ok ihv ?_
    cases v with
    | tuple a b => exact absurd rfl hk
    | _ => exact .answer _ _
  | secondFails _ ihe => exact .ask_error ihe
  | calleeFails _ ihe => exact .ask_error ihe
  | @notCallable callee arguments l f s t v _ hk ihv =>
    refine .ask_ok ihv ?_
    cases v with
    | closure c => exact absurd rfl hk
    | _ => exact .answer _ _
  | argumentFails _ _ ihc ihe => exact .ask_ok ihc ihe.askAll_error
  | wrongArity _ _ h ihc ihvs =>
    refine .ask_ok ihc (ihvs.askAll_ok ?_)
    rw [enterCall_of_arity _ _ _ _ h]
    exact .answer _ _
  | refused _ _ h hlimit hdepth ihc ihvs =>
    refine .ask_ok ihc (ihvs.askAll_ok ?_)
    rw [enterCall_of_exhausted _ _ _ _ h (CallStack.exhausted?_eq_some_iff.mpr ⟨hlimit, hdepth⟩),
      ← CallStack.attach_raised]
    exact .answer _ _
  | call _ _ h hroom hname hopens hbody ihc ihvs ihbody =>
    exact .ask_ok ihc (ihvs.askAll_ok (yields_of_within h hroom hname hopens hbody.stack_eq ihbody))
  | bodyFails _ _ h hroom hname hopens hbody ihc ihvs ihbody =>
    have hleft := yields_of_within h hroom hname hopens hbody.stack_eq ihbody
    simp only [Except.mapError, CallStack.attach_enter] at hleft
    exact .ask_ok ihc (ihvs.askAll_ok hleft)
  | nil => exact .nil
  | cons _ _ ihv ihvs => exact .cons ihv ihvs
  | headFails _ ihe => exact .head ihe
  | tailFails _ _ ihv ihe => exact .tail ihv ihe

theorem yields_iff_evaluates {t : Term} {f : FrameId} {s u : State} {r : Outcome} :
    Plan.Yields body (body ⟨t, f⟩ s) r u ↔ Evaluates t f s r u :=
  ⟨fun h => h.keeps evaluates_body, fun h => h.yields⟩

end Evaluation

/-- An evaluation comes to its end with a result and a state exactly when the rules derive
this result and this state. -/
theorem evaluate_eq_some_iff_evaluates (i j : Interpreter) (t : Term) (f : FrameId) (r : Outcome) :
    (∃ fuel, i.evaluate fuel t f = some (r, j)) ↔
      j.root = i.root ∧ Evaluation.Evaluates t f i.state r j.state := by
  rw [← Evaluation.yields_iff_evaluates]
  exact Interpreter.returns_iff_yields

end TreeScript

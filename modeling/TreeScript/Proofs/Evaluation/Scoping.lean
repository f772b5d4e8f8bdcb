import TreeScript.Proofs.Evaluation.Isolation
import TreeScript.Proofs.Operation
import TreeScript.Proofs.Store.Closed

/-!
Scoped terms in closed stores. Main statement: their evaluation never fails for an
undefined variable, and leaves a closed store and a closed value behind.
-/
namespace TreeScript

namespace Evaluation

/-- The term can be evaluated in the frame without meeting an unbound name. -/
structure Ready (s : Store) (f : FrameId) (t : Term) : Prop where
  has : s.Has f
  closed : s.Closed
  names : Scoped (s.visible f) t

theorem Ready.next {s u : Store} {f : FrameId} {t c : Term} (h : Ready s f t)
    (hsu : s.Grows u) (hu : u.Closed) (hc : Scoped (s.visible f) c) : Ready u f c :=
  ⟨hsu.has h.has, hu, hc.mono (hsu.visible f)⟩

/-- After a binding the names in scope are those in scope before and the name bound. -/
theorem Ready.bind {s t : Store} {f : FrameId} {term next : Term} {name : String} {v : Value}
    (h : Ready s f term) (hst : s.Grows t) (ht : t.Closed) (hv : v.Closed (t.bind f name v))
    (hnext : Scoped (insert name (s.visible f)) next) : Ready (t.bind f name v) f next where
  has := (Store.grows_bind t f name v).has (hst.has h.has)
  closed := ht.bind hv
  names := hnext.mono ((Set.insert_subset_insert (hst.visible f)).trans
    (Store.visible_bind (hst.has h.has) name v))

/-- How an evaluation that began in a store may end. -/
structure Safe (s : Store) (r : Outcome) (u : State) : Prop where
  grows : s.Grows u.store
  closed : u.store.Closed
  value : ∀ v, r = .ok v → v.Closed u.store
  failure : ∀ e, r = .error e → ∀ name, e.cause ≠ .undefinedVariable name

theorem Safe.of_ok {s : Store} {v : Value} {u : State} (hgrows : s.Grows u.store)
    (hclosed : u.store.Closed) (hv : v.Closed u.store) : Safe s (.ok v) u where
  grows := hgrows
  closed := hclosed
  value := by
    rintro w ⟨⟩
    exact hv
  failure := by rintro e ⟨⟩

theorem Safe.of_error {s : Store} {e : Failure} {u : State} (hgrows : s.Grows u.store)
    (hclosed : u.store.Closed) (he : ∀ name, e.cause ≠ .undefinedVariable name) :
    Safe s (.error e) u where
  grows := hgrows
  closed := hclosed
  value := by rintro v ⟨⟩
  failure := by
    rintro d ⟨⟩
    exact he

theorem Safe.ok {s : Store} {v : Value} {u : State} (h : Safe s (.ok v) u) : v.Closed u.store :=
  h.value v rfl

theorem Safe.after {s t : Store} {r : Outcome} {u : State} (hst : s.Grows t)
    (h : Safe t r u) : Safe s r u :=
  ⟨hst.trans h.grows, h.closed, h.value, h.failure⟩

def Sound (q : Request) (s : State) (r : Outcome) (u : State) : Prop :=
  Ready s.store q.frame q.term → Safe s.store r u

theorem safe_enterCall {c : Closure} {arguments : List Value} {call : Call} {s : State}
    (hs : s.store.Closed) (hc : c.Closed s.store) (hvs : ∀ v ∈ arguments, v.Closed s.store) :
    (enterCall c arguments call s).Ensures (Plan.Met body Sound) (Safe s.store) := by
  have hrefl : s.store.Grows s.store := .refl s.store
  apply enterCall_cases
  · intro h
    exact .of_error hrefl hs (by rintro name ⟨⟩)
  · intro limit h hroom
    apply Safe.of_error hrefl hs
    rw [CallStack.cause_attach]
    rintro name ⟨⟩
  · intro h hroom
    apply Plan.ensures_call
    intro r u hbody _
    have hgrows := (Store.keeps_newChild s.store c.frame c.parameters arguments).grows
    have hchild : Ready (s.called c arguments call).store ⟨s.store.frames.size⟩ c.body := by
      refine ⟨?_, hs.newChild hvs, hc.mono (Store.visible_newChild s.store c.frame h)⟩
      exact ⟨_, (Store.frame?_newChild ..).trans (if_pos rfl)⟩
    have hsafe := (hbody hchild).after hgrows
    rw [leaveCall_eq]
    cases r with
    | ok v => exact .of_ok hsafe.grows hsafe.closed hsafe.ok
    | error e =>
      refine .of_error hsafe.grows hsafe.closed ?_
      rw [CallStack.cause_attach]
      exact hsafe.failure e rfl

theorem safe_apply {op : Operator} {a b : Value} {l : Location} {s : Store} {u : State}
    (hsu : s.Grows u.store) (hu : u.store.Closed) :
    Plan.Ensures (Plan.Met body Sound) (Safe s)
      (match op.apply a b with
        | .ok v => value v u
        | .error e => .answer (.error (e.located l)) u) := by
  have hresults := op.results_apply a b
  cases h : op.apply a b with
  | ok v => exact .of_ok hsu hu (Value.closed_of_closures (Operator.closures_apply h))
  | error e =>
    simp only [h] at hresults ⊢
    apply Safe.of_error hsu hu
    intro name hname
    rcases hresults with hcause | hcause <;> cases hcause.symm.trans hname

section Children
variable {s : Store} {f : FrameId} {term : Term} {t : State}

/-- A child in scope may be evaluated next, in whatever the store has grown to. -/
theorem safe_ask {c : Term} {k : Value → State → EvalPlan} (hready : Ready s f term)
    (hst : s.Grows t.store) (ht : t.store.Closed) (hc : Scoped (s.visible f) c)
    (hk : ∀ v u, t.store.Grows u.store → u.store.Closed → v.Closed u.store →
      (k v u).Ensures (Plan.Met body Sound) (Safe s)) :
    (Plan.ask ⟨c, f⟩ t k).Ensures (Plan.Met body Sound) (Safe s) := by
  have hnext := hready.next hst ht hc
  apply Plan.ensures_ask
  · intro v u hv _
    have hsafe := hv hnext
    exact hk v u hsafe.grows hsafe.closed hsafe.ok
  · intro e u he _
    exact (he hnext).after hst

theorem safe_askAll {cs : List Term} {k : List Value → State → EvalPlan}
    (hready : Ready s f term) (hst : s.Grows t.store) (ht : t.store.Closed)
    (hcs : ∀ c ∈ cs, Scoped (s.visible f) c)
    (hk : ∀ vs u, t.store.Grows u.store → u.store.Closed → (∀ v ∈ vs, v.Closed u.store) →
      (k vs u).Ensures (Plan.Met body Sound) (Safe s)) :
    (Plan.askAll (cs.map fun c => ⟨c, f⟩) t [] k).Ensures (Plan.Met body Sound) (Safe s) := by
  refine Plan.ensures_askAll (I := fun rest vs u => rest ⊆ cs ∧ t.store.Grows u.store ∧
    u.store.Closed ∧ ∀ v ∈ vs, v.Closed u.store) ?_ ?_ ?_ ?_
  · exact ⟨fun _ hc => hc, .refl _, ht, by simp⟩
  · intro c rest vs u v w hI hv _
    obtain ⟨hrest, hgrows, hu, hvs⟩ := hI
    obtain ⟨hc, hrest⟩ := List.cons_subset.mp hrest
    have hsafe := hv (hready.next (hst.trans hgrows) hu (hcs c hc))
    refine ⟨hrest, hgrows.trans hsafe.grows, hsafe.closed, ?_⟩
    rintro x (_ | ⟨_, hx⟩)
    · exact hsafe.ok
    · exact (hvs x hx).mono hsafe.grows
  · intro c rest vs u e w hI he _
    obtain ⟨hrest, hgrows, hu, -⟩ := hI
    obtain ⟨hc, -⟩ := List.cons_subset.mp hrest
    exact (he (hready.next (hst.trans hgrows) hu (hcs c hc))).after (hst.trans hgrows)
  · intro vs u hI
    obtain ⟨-, hgrows, hu, hvs⟩ := hI
    exact hk vs.reverse u hgrows hu fun v hv => hvs v (List.mem_reverse.mp hv)

end Children

/-- The closure that a binding binds directly is closed once its name is bound. -/
theorem Ready.recursive {s : Store} {f : FrameId} {name : Parameter} {parameters : List Parameter}
    {functionBody next term : Term} {l m : Location} (h : Ready s f term)
    (hfunction : Scoped (insert name.text (s.visible f)) (.function parameters functionBody m))
    (hnext : Scoped (insert name.text (s.visible f)) next) :
    Ready ((s.newClosure parameters functionBody f l).2.bind f name.text
      (s.newClosure parameters functionBody f l).1) f next := by
  have hmade := (s.keeps_newClosure parameters functionBody f l).grows
  refine h.bind hmade (h.closed.newClosure parameters functionBody f l) ?_ hnext
  apply Value.closed_closure.mpr
  cases hfunction with
  | function hbody =>
    refine hbody.mono (Set.union_subset_union_left _ ?_)
    exact (Set.insert_subset_insert (hmade.visible f)).trans
      (Store.visible_bind (hmade.has h.has) name.text _)

theorem sound_body (q : Request) (s : State) :
    (body q s).Ensures (Plan.Met body Sound) (Sound q s) := by
  obtain ⟨term, f⟩ := q
  apply Plan.ensures_of_imp
  intro hready
  have hrefl : s.store.Grows s.store := .refl s.store
  have hs := hready.closed
  have hnames : Scoped (s.store.visible f) term := hready.names
  cases hnames with
  | int | str | bool => exact .of_ok hrefl hs (Value.closed_of_closures rfl)
  | @var _ name l hname =>
    obtain ⟨v, hv⟩ := Store.visible_iff_exists_lookup.mp hname
    simp only [body, State.visit, hv]
    exact .of_ok hrefl hs (hs.lookup hv)
  | @binding _ name bound next l hbound hnext =>
    refine safe_ask hready hrefl hs hbound ?_
    intro v t hgrows ht hv
    apply Plan.ensures_jump
    intro r u hr _
    have hbind := Store.grows_bind t.store f name.text v
    exact (hr (hready.bind hgrows ht (hv.mono hbind) hnext)).after (hgrows.trans hbind)
  | @recursive _ name parameters functionBody next l m hfunction hnext =>
    apply Plan.ensures_ask
    · intro v t _ hy
      apply Plan.ensures_jump
      intro r u hr _
      obtain ⟨hv, rfl⟩ := hy.of_answer
      cases hv
      have hmade := (s.store.keeps_newClosure parameters functionBody f m).grows
      exact (hr (hready.recursive hfunction hnext)).after
        (hmade.trans (Store.grows_bind _ f name.text _))
    · intro e t _ hy
      cases hy.of_answer.1
  | @conditional _ condition consequent alternative l hcondition hconsequent halternative =>
    refine safe_ask hready hrefl hs hcondition ?_
    intro v t hgrows ht hv
    apply Plan.ensures_jump
    intro r u hr _
    have hbranch : Scoped (s.store.visible f) (if v.isTruthy then consequent else alternative) := by
      split
      · exact hconsequent
      · exact halternative
    exact (hr (hready.next hgrows ht hbranch)).after hgrows
  | @binary _ op lhs rhs l hlhs hrhs =>
    refine safe_ask hready hrefl hs hlhs ?_
    intro a t hgrows ht ha
    refine safe_ask hready hgrows ht hrhs ?_
    intro b u hgrows' hu hb
    exact safe_apply (hgrows.trans hgrows') hu
  | @print _ printed l hprinted =>
    refine safe_ask hready hrefl hs hprinted ?_
    intro v t hgrows ht hv
    exact .of_ok hgrows ht hv
  | @tuple _ left right l hleft hright =>
    refine safe_ask hready hrefl hs hleft ?_
    intro a t hgrows ht ha
    refine safe_ask hready hgrows ht hright ?_
    intro b u hgrows' hu hb
    exact .of_ok (hgrows.trans hgrows') hu (Value.closed_tuple.mpr ⟨ha.mono hgrows', hb⟩)
  | @first _ pair l hpair =>
    refine safe_ask hready hrefl hs hpair ?_
    intro v t hgrows ht hv
    cases v with
    | tuple a b => exact .of_ok hgrows ht (Value.closed_tuple.mp hv).1
    | _ => exact .of_error hgrows ht (by rintro name ⟨⟩)
  | @second _ pair l hpair =>
    refine safe_ask hready hrefl hs hpair ?_
    intro v t hgrows ht hv
    cases v with
    | tuple a b => exact .of_ok hgrows ht (Value.closed_tuple.mp hv).2
    | _ => exact .of_error hgrows ht (by rintro name ⟨⟩)
  | @function _ parameters functionBody l hbody =>
    have hmade := (s.store.keeps_newClosure parameters functionBody f l).grows
    refine .of_ok hmade (hs.newClosure parameters functionBody f l) ?_
    refine Value.closed_closure.mpr (hbody.mono (Set.union_subset_union_left _ ?_))
    exact hmade.visible f
  | @call _ callee arguments l hcallee harguments =>
    refine safe_ask hready hrefl hs hcallee ?_
    intro v t hgrows ht hv
    cases v with
    | closure c =>
      refine safe_askAll hready hgrows ht harguments ?_
      intro vs u hgrows' hu hvs
      have hc := Value.closed_closure.mp (hv.mono hgrows')
      exact (safe_enterCall hu hc hvs).imp fun r w hw => hw.after (hgrows.trans hgrows')
    | _ => exact .of_error hgrows ht (by rintro name ⟨⟩)

theorem safe_of_yields {t : Term} {f : FrameId} {s u : State} {r : Outcome}
    (hready : Ready s.store f t) (h : Plan.Yields body (body ⟨t, f⟩ s) r u) :
    Safe s.store r u :=
  h.keeps sound_body hready

end Evaluation

theorem Interpreter.has_root_new (limit : Option Nat) (sink : Sink) (profile : Bool) :
    (new limit sink profile).root.index < (new limit sink profile).state.store.frames.size :=
  Nat.zero_lt_one

theorem Interpreter.closed_new (limit : Option Nat) (sink : Sink) (profile : Bool) :
    (new limit sink profile).state.store.Closed := by
  intro f frame name v hframe hv
  have hframes : (new limit sink profile).state.store.frames = #[⟨[], none⟩] := rfl
  rw [Store.frame?, hframes] at hframe
  obtain ⟨hlt, rfl⟩ := Array.getElem?_eq_some_iff.mp hframe
  have hindex : f.index = 0 := Nat.lt_one_iff.mp hlt
  simp only [hindex] at hv
  cases hv

/-- A scoped term in a closed store never fails for an undefined variable, and leaves a
closed store and a closed value. A term scoped in no names never so fails in a new
interpreter, under any limit on nested calls. -/
theorem scoped_never_undefined :
    (∀ (i j : Interpreter) (t : Term) (f : FrameId) (r : Outcome),
      f.index < i.state.store.frames.size → i.state.store.Closed →
      Scoped (i.state.store.visible f) t → i.Returns t f r j →
      j.state.store.Closed ∧ (∀ v, r = .ok v → v.Closed j.state.store) ∧
        ∀ e, r = .error e → ∀ name, e.cause ≠ .undefinedVariable name) ∧
    ∀ (limit : Option Nat) (sink : Sink) (profile : Bool) (t : Term) (e : Failure)
      (j : Interpreter), Scoped ∅ t →
      (Interpreter.new limit sink profile).Returns t
        (Interpreter.new limit sink profile).root (.error e) j →
      e.code ≠ .undefinedVariable := by
  have hsafe : ∀ (i j : Interpreter) (t : Term) (f : FrameId) (r : Outcome),
      f.index < i.state.store.frames.size → i.state.store.Closed →
      Scoped (i.state.store.visible f) t → i.Returns t f r j →
      Evaluation.Safe i.state.store r j.state := by
    intro i j t f r hf hclosed ht h
    obtain ⟨-, hy⟩ := Interpreter.returns_iff_yields.mp h
    exact Evaluation.safe_of_yields ⟨⟨_, Array.getElem?_eq_getElem hf⟩, hclosed, ht⟩ hy
  constructor
  · intro i j t f r hf hclosed ht h
    have hend := hsafe i j t f r hf hclosed ht h
    exact ⟨hend.closed, hend.value, hend.failure⟩
  · intro limit sink profile t e j ht h hcode
    have hend := hsafe _ j t _ _ (Interpreter.has_root_new limit sink profile)
      (Interpreter.closed_new limit sink profile) (ht.mono (Set.empty_subset _)) h
    cases hcause : e.cause with
    | undefinedVariable name => exact hend.failure e rfl name hcause
    | _ => simp [Failure.code, Failure.Cause.code, hcause] at hcode

/-- A function that calls itself down to a division by zero. -/
def countdown : Term :=
  .binding ⟨"f", .unstated⟩
    (.function [⟨"n", .unstated⟩]
      (.conditional (.var "n" .unstated)
        (.call (.var "f" .unstated)
          [.binary .sub (.var "n" .unstated) (.int 1 .unstated) .unstated] .unstated)
        (.binary .div (.int 1 .unstated) (.var "n" .unstated) .unstated) .unstated) .unstated)
    (.call (.var "f" .unstated) [.int 2 .unstated] .unstated) .unstated

theorem scoped_countdown : Scoped ∅ countdown := by
  have hn : Scoped (insert "f" ∅ ∪ parameterNames [⟨"n", .unstated⟩]) (.var "n" .unstated) :=
    .var (.inr ⟨_, .head _, rfl⟩)
  refine .recursive (.function (.conditional hn (.call (.var (.inl (.inl rfl))) ?_)
    (.binary .int hn))) (.call (.var (.inl rfl)) ?_)
  · rintro t (_ | ⟨_, ⟨⟩⟩)
    exact .binary hn .int
  · rintro t (_ | ⟨_, ⟨⟩⟩)
    exact .int

theorem scoped_never_undefined_countdown :
    ∃ e j, (Interpreter.new (some 3) .buffer true).Returns countdown
        (Interpreter.new (some 3) .buffer true).root (.error e) j ∧
      e.cause = .divisionByZero ∧ j.state.store.Closed ∧ e.code ≠ .undefinedVariable := by
  have hrun : ((Interpreter.new (some 3) .buffer true).evaluate 90 countdown
      (Interpreter.new (some 3) .buffer true).root).map
        (fun x => x.1.mapError fun e => e.cause) = some (.error .divisionByZero) := by
    cbv
  obtain ⟨⟨r, j⟩, hj, hr⟩ := Option.map_eq_some_iff.mp hrun
  cases r with
  | ok v => cases hr
  | error e =>
    have hreturns : (Interpreter.new (some 3) .buffer true).Returns countdown
        (Interpreter.new (some 3) .buffer true).root (.error e) j := ⟨90, hj⟩
    obtain ⟨hclosed, -, -⟩ := scoped_never_undefined.1 _ j countdown _ _
      (Interpreter.has_root_new _ _ _) (Interpreter.closed_new _ _ _)
      (scoped_countdown.mono (Set.empty_subset _)) hreturns
    exact ⟨e, j, hreturns, Except.error.inj hr, hclosed,
      scoped_never_undefined.2 _ _ _ countdown e j scoped_countdown hreturns⟩

end TreeScript

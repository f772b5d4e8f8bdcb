import TreeScript.Proofs.Evaluation.Positions
import TreeScript.Proofs.Operation
import TreeScript.Proofs.Store.Closed

/-!
Disciplines of closures and frames. A discipline says, relative to a world that can only
grow, what may be evaluated, which closures there may be, and which stores fit. Where each
single step keeps to it, a whole evaluation does, and so does every node it comes to.
-/
namespace TreeScript.Evaluation

structure Discipline (ω : Type) where
  /-- The second world has grown from the first. -/
  le : ω → ω → Prop
  allows : ω → Request → State → Prop
  owns : ω → Closure → Prop
  fits : ω → Store → Prop
  refl : ∀ w, le w w
  trans : ∀ {w x y}, le w x → le x y → le w y
  allows_mono : ∀ {w x q s}, le w x → allows w q s → allows x q s
  owns_mono : ∀ {w x c}, le w x → owns w c → owns x c
  ask : ∀ {w q s p t}, allows w q s → Asks q s p t → allows w p t
  make : ∀ {w parameters body l f s}, allows w ⟨.function parameters body l, f⟩ s →
    owns w ⟨s.store.closures, parameters, body, f, l⟩
  lookup : ∀ {w s f name v}, fits w s → s.lookup f name = some v → ∀ c ∈ v.closures, owns w c
  bind : ∀ {w name bound next l f s t v}, allows w ⟨.binding name bound next l, f⟩ s → fits w t →
    (∀ c ∈ v.closures, owns w c) → fits w (t.bind f name.text v)
  frames : ∀ {w s u}, fits w s → u.frames = s.frames → fits w u
  /-- The world may grow for the frame of a call. -/
  enter : ∀ {w q s call c vs u}, allows w q s → Enters q s call c vs u → fits w u.store →
    owns w c → (∀ v ∈ vs, ∀ c ∈ v.closures, owns w c) →
    ∃ x, le w x ∧ allows x (bodyRequest c u) (u.called c vs call) ∧
      fits x (u.called c vs call).store

namespace Discipline
variable {ω : Type} (D : Discipline ω)

/-- Every closure that the value is or has among its parts may exist. -/
def Owned (w : ω) (v : Value) : Prop := ∀ c ∈ v.closures, D.owns w c

/-- How an evaluation that began in the world may end. -/
def Ends (w : ω) (r : Outcome) (u : State) : Prop :=
  ∃ x, D.le w x ∧ D.fits x u.store ∧ ∀ v, r = .ok v → D.Owned x v

def Keeps (t : Term) (f : FrameId) (s : State) (r : Outcome) (u : State) : Prop :=
  ∀ w, D.allows w ⟨t, f⟩ s → D.fits w s.store → D.Ends w r u

/-- The same of terms evaluated from left to right, each once those before it have values. -/
def KeepsAll (ts : List Term) (f : FrameId) (s : State) (rs : Except Failure (List Value))
    (u : State) : Prop :=
  ∀ w, (∀ before t after vs u, before ++ t :: after = ts → EvaluatesAll before f s (.ok vs) u →
    D.allows w ⟨t, f⟩ u) → D.fits w s.store →
    ∃ x, D.le w x ∧ D.fits x u.store ∧ ∀ vs, rs = .ok vs → ∀ v ∈ vs, D.Owned x v

variable {D} {w x : ω} {t : Term} {f : FrameId} {s u : State} {r : Outcome}

theorem Owned.mono {v : Value} (h : D.Owned w v) (hwx : D.le w x) : D.Owned x v :=
  fun c hc => D.owns_mono hwx (h c hc)

theorem owned_of_closures {v : Value} (h : v.closures = []) : D.Owned w v := by
  simp [Owned, h]

theorem owned_tuple {a b : Value} : D.Owned w (.tuple a b) ↔ D.Owned w a ∧ D.Owned w b := by
  simp only [Owned, Value.closures, List.forall_mem_append]

theorem owned_closure {c : Closure} : D.Owned w (.closure c) ↔ D.owns w c := by
  simp only [Owned, Value.closures, List.forall_mem_singleton]

theorem Ends.of_ok {v : Value} (hwx : D.le w x) (hu : D.fits x u.store) (hv : D.Owned x v) :
    D.Ends w (.ok v) u := by
  refine ⟨x, hwx, hu, ?_⟩
  rintro v ⟨⟩
  exact hv

theorem Ends.of_error {e : Failure} (hwx : D.le w x) (hu : D.fits x u.store) :
    D.Ends w (.error e) u := by
  refine ⟨x, hwx, hu, ?_⟩
  rintro v ⟨⟩

theorem Ends.ok {v : Value} (h : D.Ends w (.ok v) u) :
    ∃ x, D.le w x ∧ D.fits x u.store ∧ D.Owned x v := by
  obtain ⟨x, hwx, hu, hv⟩ := h
  exact ⟨x, hwx, hu, hv v rfl⟩

theorem Ends.of_le (hwx : D.le w x) (h : D.Ends x r u) : D.Ends w r u := by
  obtain ⟨y, hxy, hu, hv⟩ := h
  exact ⟨y, D.trans hwx hxy, hu, hv⟩

theorem KeepsAll.nil : D.KeepsAll [] f s (.ok []) s := by
  intro w _ hs
  refine ⟨w, D.refl w, hs, ?_⟩
  rintro vs ⟨⟩ v ⟨⟩

theorem KeepsAll.head {ts : List Term} {e : Failure} (ih : D.Keeps t f s (.error e) u) :
    D.KeepsAll (t :: ts) f s (.error e) u := by
  intro w hq hs
  obtain ⟨x, hwx, hu, -⟩ := ih w (hq [] _ _ _ _ rfl .nil) hs
  refine ⟨x, hwx, hu, ?_⟩
  rintro vs ⟨⟩

theorem KeepsAll.cons {ts : List Term} {v : Value} {rs : Except Failure (List Value)} {a : State}
    (hv : Evaluates t f s (.ok v) a) (ih : D.Keeps t f s (.ok v) a)
    (ihs : D.KeepsAll ts f a rs u) : D.KeepsAll (t :: ts) f s (rs.map fun vs => v :: vs) u := by
  intro w hq hs
  obtain ⟨x, hwx, ha, hv'⟩ := (ih w (hq [] _ _ _ _ rfl .nil) hs).ok
  have hrest : ∀ before c after vs b, before ++ c :: after = ts →
      EvaluatesAll before f a (.ok vs) b → D.allows x ⟨c, f⟩ b := by
    rintro before c after vs b rfl hvs
    exact D.allows_mono hwx (hq (t :: before) c after (v :: vs) b rfl (.cons hv hvs))
  obtain ⟨y, hxy, hu, hvs⟩ := ihs x hrest ha
  refine ⟨y, D.trans hwx hxy, hu, ?_⟩
  cases rs with
  | error e => rintro vs ⟨⟩
  | ok ws =>
    rintro vs ⟨⟩ z (_ | ⟨_, hz⟩)
    · exact hv'.mono hxy
    · exact hvs ws rfl z hz

/-- The callee and the first arguments of a call keep to the discipline. -/
theorem keeps_arguments {callee : Term} {arguments first rest : List Term} {l : Location}
    {c : Closure} {a : State} {rs : Except Failure (List Value)}
    (hfirst : first ++ rest = arguments) (hc : Evaluates callee f s.visit (.ok (.closure c)) a)
    (ihc : D.Keeps callee f s.visit (.ok (.closure c)) a) (ihvs : D.KeepsAll first f a rs u)
    (hq : D.allows w ⟨.call callee arguments l, f⟩ s) (hs : D.fits w s.store) :
    ∃ x, D.le w x ∧ D.fits x u.store ∧ D.owns x c ∧
      ∀ vs, rs = .ok vs → ∀ v ∈ vs, D.Owned x v := by
  subst hfirst
  obtain ⟨x, hwx, ha, hclosure⟩ := (ihc w (D.ask hq .callee) hs).ok
  have harguments : ∀ before t after vs b, before ++ t :: after = first →
      EvaluatesAll before f a (.ok vs) b → D.allows x ⟨t, f⟩ b := by
    rintro before t after vs b rfl hvs
    have hcall : D.allows x ⟨.call callee (before ++ t :: (after ++ rest)) l, f⟩ s := by
      simpa using D.allows_mono hwx hq
    exact D.ask hcall (.argument hc hvs)
  obtain ⟨y, hxy, hu, hvs⟩ := ihvs x harguments ha
  exact ⟨y, D.trans hwx hxy, hu, D.owns_mono hxy (owned_closure.mp hclosure), hvs⟩

/-- The body of a call ends as its discipline wants, and so the call. -/
theorem ends_body {callee : Term} {arguments : List Term} {l : Location} {c : Closure} {a b : State}
    {vs : List Value} (hc : Evaluates callee f s.visit (.ok (.closure c)) a)
    (hvs : EvaluatesAll arguments f a (.ok vs) b) (h : vs.length = c.parameters.length)
    (hroom : ∀ limit, b.stack.limit = some limit → b.stack.depth < limit)
    (ihc : D.Keeps callee f s.visit (.ok (.closure c)) a)
    (ihvs : D.KeepsAll arguments f a (.ok vs) b)
    (ihbody : D.Keeps c.body ⟨b.store.frames.size⟩ (b.called c vs ⟨calleeName callee, l⟩) r u)
    (hq : D.allows w ⟨.call callee arguments l, f⟩ s) (hs : D.fits w s.store) : D.Ends w r u := by
  obtain ⟨x, hwx, hb, hclosure, hvalues⟩ := keeps_arguments (List.append_nil _) hc ihc ihvs hq hs
  obtain ⟨y, hxy, hqy, hy⟩ := D.enter (D.allows_mono hwx hq) (.call hc hvs h hroom) hb hclosure
    (hvalues _ rfl)
  exact (ihbody y hqy hy).of_le (D.trans hwx hxy)

/-- An evaluation keeps to the discipline. -/
theorem keeps_of_evaluates (h : Evaluates t f s r u) : D.Keeps t f s r u := by
  -- Each child starts in the world that the one before it ended in; what that one gave, and
  -- what allowed the node, carry over as the world grows.
  induction h using @Evaluates.rec _ fun ts f s rs u _ => D.KeepsAll ts f s rs u with
  | int | str | bool => exact fun w _ hs => .of_ok (D.refl w) hs (owned_of_closures rfl)
  | var h => exact fun w _ hs => .of_ok (D.refl w) hs (D.lookup hs (Store.lookup_eq_some_iff.mpr h))
  | undefined _ => exact fun w _ hs => .of_error (D.refl w) hs
  | function =>
    intro w hq hs
    exact .of_ok (D.refl w) (D.frames hs rfl) (owned_closure.mpr (D.make hq))
  | binding hv hbinds _ ihv ihr =>
    intro w hq hs
    rw [Store.binds_iff.mp hbinds] at ihr
    obtain ⟨x, hwx, ht, hv'⟩ := (ihv w (D.ask hq .bound) hs).ok
    have hqx := D.allows_mono hwx hq
    exact (ihr x (D.ask hqx (.next hv)) (D.bind hqx ht hv')).of_le hwx
  | boundFails _ ihe => exact fun w hq hs => ihe w (D.ask hq .bound) hs
  | consequent hv h _ ihv ihr =>
    intro w hq hs
    obtain ⟨x, hwx, ht, -⟩ := (ihv w (D.ask hq .condition) hs).ok
    exact (ihr x (D.ask (D.allows_mono hwx hq) (.consequent hv h)) ht).of_le hwx
  | alternative hv h _ ihv ihr =>
    intro w hq hs
    obtain ⟨x, hwx, ht, -⟩ := (ihv w (D.ask hq .condition) hs).ok
    exact (ihr x (D.ask (D.allows_mono hwx hq) (.alternative hv h)) ht).of_le hwx
  | conditionFails _ ihe => exact fun w hq hs => ihe w (D.ask hq .condition) hs
  | binary ha _ h iha ihb =>
    intro w hq hs
    obtain ⟨x, hwx, ht, -⟩ := (iha w (D.ask hq .lhs) hs).ok
    obtain ⟨y, hxy, hu, -⟩ := (ihb x (D.ask (D.allows_mono hwx hq) (.rhs ha)) ht).ok
    have hnone := Operator.closures_apply (Operator.apply_eq_ok_iff.mpr h)
    exact .of_ok (D.trans hwx hxy) hu (owned_of_closures hnone)
  | dividesByZero ha _ _ iha ihb | misfits ha _ _ iha ihb =>
    intro w hq hs
    obtain ⟨x, hwx, ht, -⟩ := (iha w (D.ask hq .lhs) hs).ok
    obtain ⟨y, hxy, hu, -⟩ := (ihb x (D.ask (D.allows_mono hwx hq) (.rhs ha)) ht).ok
    exact .of_error (D.trans hwx hxy) hu
  | lhsFails _ ihe => exact fun w hq hs => ihe w (D.ask hq .lhs) hs
  | rhsFails ha _ iha ihe =>
    intro w hq hs
    obtain ⟨x, hwx, ht, -⟩ := (iha w (D.ask hq .lhs) hs).ok
    exact (ihe x (D.ask (D.allows_mono hwx hq) (.rhs ha)) ht).of_le hwx
  | print _ ihv => exact fun w hq hs => ihv w (D.ask hq .printed) hs
  | printedFails _ ihe => exact fun w hq hs => ihe w (D.ask hq .printed) hs
  | tuple ha _ iha ihb =>
    intro w hq hs
    obtain ⟨x, hwx, ht, hv⟩ := (iha w (D.ask hq .left) hs).ok
    obtain ⟨y, hxy, hu, hv'⟩ := (ihb x (D.ask (D.allows_mono hwx hq) (.right ha)) ht).ok
    exact .of_ok (D.trans hwx hxy) hu (owned_tuple.mpr ⟨hv.mono hxy, hv'⟩)
  | leftFails _ ihe => exact fun w hq hs => ihe w (D.ask hq .left) hs
  | rightFails ha _ iha ihe =>
    intro w hq hs
    obtain ⟨x, hwx, ht, -⟩ := (iha w (D.ask hq .left) hs).ok
    exact (ihe x (D.ask (D.allows_mono hwx hq) (.right ha)) ht).of_le hwx
  | first _ ihv =>
    intro w hq hs
    obtain ⟨x, hwx, ht, hv⟩ := (ihv w (D.ask hq .ofFirst) hs).ok
    exact .of_ok hwx ht (owned_tuple.mp hv).1
  | firstOfOther _ _ ihv =>
    intro w hq hs
    obtain ⟨x, hwx, ht, -⟩ := (ihv w (D.ask hq .ofFirst) hs).ok
    exact .of_error hwx ht
  | firstFails _ ihe => exact fun w hq hs => ihe w (D.ask hq .ofFirst) hs
  | second _ ihv =>
    intro w hq hs
    obtain ⟨x, hwx, ht, hv⟩ := (ihv w (D.ask hq .ofSecond) hs).ok
    exact .of_ok hwx ht (owned_tuple.mp hv).2
  | secondOfOther _ _ ihv =>
    intro w hq hs
    obtain ⟨x, hwx, ht, -⟩ := (ihv w (D.ask hq .ofSecond) hs).ok
    exact .of_error hwx ht
  | secondFails _ ihe => exact fun w hq hs => ihe w (D.ask hq .ofSecond) hs
  | calleeFails _ ihe => exact fun w hq hs => ihe w (D.ask hq .callee) hs
  | notCallable _ _ ihv =>
    intro w hq hs
    obtain ⟨x, hwx, ht, -⟩ := (ihv w (D.ask hq .callee) hs).ok
    exact .of_error hwx ht
  | argumentFails hc _ ihc ihe =>
    intro w hq hs
    obtain ⟨x, hwx, hu, -, -⟩ := keeps_arguments (List.append_nil _) hc ihc ihe hq hs
    exact .of_error hwx hu
  | wrongArity hc _ _ ihc ihvs | refused hc _ _ _ _ ihc ihvs =>
    intro w hq hs
    obtain ⟨x, hwx, hu, -, -⟩ := keeps_arguments (List.append_nil _) hc ihc ihvs hq hs
    exact .of_error hwx hu
  | call hc hvs h hroom hname hopens _ ihc ihvs ihbody =>
    intro w hq hs
    rw [State.within_eq_called h hopens, calledAs_iff.mp hname] at ihbody
    exact ends_body hc hvs h hroom ihc ihvs ihbody hq hs
  | bodyFails hc hvs h hroom hname hopens _ ihc ihvs ihbody =>
    intro w hq hs
    rw [State.within_eq_called h hopens, calledAs_iff.mp hname] at ihbody
    obtain ⟨x, hwx, hu, -⟩ := ends_body hc hvs h hroom ihc ihvs ihbody hq hs
    exact .of_error hwx hu
  | nil => exact .nil
  | cons hv _ ihv ihvs => exact .cons hv ihv ihvs
  | headFails _ ihe => exact .head ihe
  | tailFails hv _ ihv ihe => exact .cons hv ihv ihe

theorem keepsAll_of_evaluatesAll {ts : List Term} {rs : Except Failure (List Value)}
    (h : EvaluatesAll ts f s rs u) : D.KeepsAll ts f s rs u := by
  induction ts generalizing s rs with
  | nil =>
    cases h
    exact .nil
  | cons t ts ih =>
    cases h with
    | cons hv hvs => exact .cons hv (keeps_of_evaluates hv) (ih hvs)
    | headFails he => exact .head (keeps_of_evaluates he)
    | tailFails hv he => exact .cons hv (keeps_of_evaluates hv) (ih he)

theorem fits_of_asks {q p : Request} {a : State} (h : Asks q s p a) (hq : D.allows w q s)
    (hs : D.fits w s.store) : ∃ x, D.le w x ∧ D.fits x a.store := by
  cases h with
  | bound | condition | lhs | printed | left | ofFirst | ofSecond | callee =>
    exact ⟨w, D.refl w, hs⟩
  | next hv =>
    obtain ⟨x, hwx, ha, hv'⟩ := (keeps_of_evaluates hv w (D.ask hq .bound) hs).ok
    exact ⟨x, hwx, D.bind (D.allows_mono hwx hq) ha hv'⟩
  | branch hv =>
    obtain ⟨x, hwx, ha, -⟩ := (keeps_of_evaluates hv w (D.ask hq .condition) hs).ok
    exact ⟨x, hwx, ha⟩
  | rhs hv =>
    obtain ⟨x, hwx, ha, -⟩ := (keeps_of_evaluates hv w (D.ask hq .lhs) hs).ok
    exact ⟨x, hwx, ha⟩
  | right hv =>
    obtain ⟨x, hwx, ha, -⟩ := (keeps_of_evaluates hv w (D.ask hq .left) hs).ok
    exact ⟨x, hwx, ha⟩
  | argument hc hvs =>
    obtain ⟨x, hwx, ha, -, -⟩ := keeps_arguments rfl hc (keeps_of_evaluates hc)
      (keepsAll_of_evaluatesAll hvs) hq hs
    exact ⟨x, hwx, ha⟩

theorem allows_of_enters {q : Request} {call : Call} {c : Closure} {vs : List Value}
    (h : Enters q s call c vs u) (hq : D.allows w q s) (hs : D.fits w s.store) :
    ∃ x, D.le w x ∧ D.allows x (bodyRequest c u) (u.called c vs call) ∧
      D.fits x (u.called c vs call).store := by
  cases h with
  | call hc hvs h hroom =>
    obtain ⟨x, hwx, hu, hclosure, hvalues⟩ := keeps_arguments (List.append_nil _) hc
      (keeps_of_evaluates hc) (keepsAll_of_evaluatesAll hvs) hq hs
    obtain ⟨y, hxy, hqy, hy⟩ := D.enter (D.allows_mono hwx hq) (.call hc hvs h hroom) hu hclosure
      (hvalues _ rfl)
    exact ⟨y, D.trans hwx hxy, hqy, hy⟩

/-- So does every node that the evaluation comes to. -/
theorem allows_of_reaches {calls : List Call} {q p : Request} (h : Reaches calls q s p u)
    (hq : D.allows w q s) (hs : D.fits w s.store) :
    ∃ x, D.le w x ∧ D.allows x p u ∧ D.fits x u.store := by
  induction h generalizing w with
  | here => exact ⟨w, D.refl w, hq, hs⟩
  | child hask _ ih =>
    obtain ⟨x, hwx, hx⟩ := fits_of_asks hask hq hs
    obtain ⟨y, hxy, hpy, hy⟩ := ih (D.ask (D.allows_mono hwx hq) hask) hx
    exact ⟨y, D.trans hwx hxy, hpy, hy⟩
  | body henter _ ih =>
    obtain ⟨x, hwx, hqx, hx⟩ := allows_of_enters henter hq hs
    obtain ⟨y, hxy, hpy, hy⟩ := ih hqx hx
    exact ⟨y, D.trans hwx hxy, hpy, hy⟩

/-- So does every moment of its run. -/
theorem fits_of_advance {q : Request} {fuel : Nat} {c : Plan.Config State Request Outcome}
    (h : Plan.advance body fuel (Plan.start q s) = .unfinished c) (hq : D.allows w q s)
    (hs : D.fits w s.store) :
    ∃ x, D.le w x ∧ D.fits x c.plan.state.store ∧
      ∀ p, c.plan.request? = some p → D.allows x p c.plan.state := by
  obtain ⟨plan, waiting⟩ := c
  obtain ⟨hdemands, p, a, ⟨calls, hp⟩, hsame⟩ := serves_of_advance_start h
  cases plan with
  | answer r u =>
    -- The state is the one in which the node that the plan serves ends.
    obtain ⟨x, hwx, hpx, hx⟩ := allows_of_reaches hp hq hs
    have hev := yields_iff_evaluates.mp (hsame r u (.answer r u))
    obtain ⟨y, hxy, hy, -⟩ := keeps_of_evaluates hev x hpx hx
    exact ⟨y, D.trans hwx hxy, hy, by simp [Plan.request?]⟩
  | jump p' u =>
    obtain ⟨calls', hp'⟩ := hdemands
    obtain ⟨x, hwx, hpx, hx⟩ := allows_of_reaches hp' hq hs
    refine ⟨x, hwx, hx, ?_⟩
    rintro p ⟨⟩
    exact hpx
  | call p' u k =>
    obtain ⟨calls', hp'⟩ := hdemands.1
    obtain ⟨x, hwx, hpx, hx⟩ := allows_of_reaches hp' hq hs
    refine ⟨x, hwx, hx, ?_⟩
    rintro p ⟨⟩
    exact hpx

end Discipline

end TreeScript.Evaluation

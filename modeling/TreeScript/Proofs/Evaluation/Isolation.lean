import Mathlib
import TreeScript.Proofs.Evaluation.Calls
import TreeScript.Proofs.Store.Frames

/-!
Which frames an evaluation can change. Main statement: only the frame it runs in, there
only names of bindings outside the functions of the term, and a call no frame at all that
was there before.
-/
namespace TreeScript

namespace Term

mutual

/-- The names that bindings of the term bind, those inside its functions left out. -/
def boundNames : Term → List String
  | .int .. | .str .. | .bool .. | .var .. | .function .. => []
  | .print value _ | .first value _ | .second value _ => boundNames value
  | .binary _ lhs rhs _ => boundNames lhs ++ boundNames rhs
  | .tuple left right _ => boundNames left ++ boundNames right
  | .conditional condition consequent alternative _ =>
    boundNames condition ++ boundNames consequent ++ boundNames alternative
  | .binding name value next _ => name.text :: (boundNames value ++ boundNames next)
  | .call callee arguments _ => boundNames callee ++ boundNamesAll arguments

def boundNamesAll : List Term → List String
  | [] => []
  | t :: ts => boundNames t ++ boundNamesAll ts

end

theorem mem_boundNamesAll {name : String} {t : Term} {ts : List Term} (ht : t ∈ ts)
    (hname : name ∈ t.boundNames) : name ∈ boundNamesAll ts := by
  induction ts with
  | nil => cases ht
  | cons u us ih =>
    rw [boundNamesAll, List.mem_append]
    rcases List.mem_cons.mp ht with rfl | ht
    · exact .inl hname
    · exact .inr (ih ht)

theorem mem_boundNames_of_child {name : String} {t c : Term} (ht : t.kind ≠ .function)
    (hc : c ∈ t.children) (hname : name ∈ c.boundNames) : name ∈ t.boundNames := by
  cases t with
  | function parameters body l => exact absurd rfl ht
  | call callee arguments l =>
    rw [boundNames, List.mem_append]
    rcases List.mem_cons.mp hc with rfl | hc
    · exact .inl hname
    · exact .inr (mem_boundNamesAll hc hname)
  | int | str | bool | var => cases hc
  | _ =>
    simp only [children, List.mem_cons, List.not_mem_nil, or_false] at hc
    rcases hc with rfl | rfl | rfl <;> simp [boundNames, hname]

end Term

namespace Evaluation

/-- The frames after an evaluation of a term: what has changed is the term's own names in
the frame of the evaluation. -/
abbrev Rebound (t : Term) (f : FrameId) (s u : Store) : Prop :=
  s.Rebinds (fun name => name ∈ t.boundNames) f u

theorem rebound_of_child {t c : Term} {f : FrameId} {s u : Store} (ht : t.kind ≠ .function)
    (hc : c ∈ t.children) (h : Rebound c f s u) : Rebound t f s u :=
  h.mono fun _ hname => Term.mem_boundNames_of_child ht hc hname

def Isolated (q : Request) (s : State) (_ : Outcome) (u : State) : Prop :=
  Rebound q.term q.frame s.store u.store

/-- The call step keeps every frame: its body runs in a frame that was not there. -/
theorem keeps_enterCall (c : Closure) (arguments : List Value) (call : Call) (s : State) :
    (enterCall c arguments call s).Ensures (Plan.Met body Isolated)
      fun _ u => s.store.Keeps u.store := by
  apply enterCall_cases
  · intro h g frame hg
    exact hg
  · intro limit h hs g frame hg
    exact hg
  · intro h hs
    apply Plan.ensures_call
    intro r u hbody _
    rw [leaveCall_eq]
    intro g frame hg
    have hne : g ≠ ⟨s.store.frames.size⟩ := by
      rintro rfl
      exact Nat.lt_irrefl _ (Store.index_lt_of_frame? hg)
    exact hbody.other g frame hne (Store.keeps_newChild s.store c.frame _ arguments g frame hg)

section Children
variable {t : Term} {f : FrameId} {s : Store} {u : State}

/-- A child that is evaluated next binds only names of the node. -/
theorem rebound_ask {c : Term} {k : Value → State → EvalPlan} (ht : t.kind ≠ .function)
    (hc : c ∈ t.children) (hu : Rebound t f s u.store)
    (hk : ∀ v w, Rebound t f s w.store →
      (k v w).Ensures (Plan.Met body Isolated) fun _ x => Rebound t f s x.store) :
    (Plan.ask ⟨c, f⟩ u k).Ensures (Plan.Met body Isolated) fun _ x => Rebound t f s x.store := by
  apply Plan.ensures_ask
  · intro v w hv _
    exact hk v w (hu.trans (rebound_of_child ht hc hv))
  · intro e w he _
    exact hu.trans (rebound_of_child ht hc he)

theorem rebound_askAll {cs : List Term} {k : List Value → State → EvalPlan}
    (ht : t.kind ≠ .function) (hcs : cs ⊆ t.children) (hu : Rebound t f s u.store)
    (hk : ∀ vs w, Rebound t f s w.store →
      (k vs w).Ensures (Plan.Met body Isolated) fun _ x => Rebound t f s x.store) :
    (Plan.askAll (cs.map fun c => ⟨c, f⟩) u [] k).Ensures (Plan.Met body Isolated)
      fun _ x => Rebound t f s x.store := by
  refine Plan.ensures_askAll (I := fun rest _ w => rest ⊆ cs ∧ Rebound t f s w.store) ?_ ?_ ?_ ?_
  · exact ⟨fun _ hc => hc, hu⟩
  · intro c rest vs w v x hI hv _
    obtain ⟨hrest, hw⟩ := hI
    obtain ⟨hc, hrest⟩ := List.cons_subset.mp hrest
    exact ⟨hrest, hw.trans (rebound_of_child ht (hcs hc) hv)⟩
  · intro c rest vs w e x hI he _
    obtain ⟨hrest, hw⟩ := hI
    obtain ⟨hc, -⟩ := List.cons_subset.mp hrest
    exact hw.trans (rebound_of_child ht (hcs hc) he)
  · intro vs w hI
    exact hk vs.reverse w hI.2

end Children

theorem isolated_body (q : Request) (s : State) :
    (body q s).Ensures (Plan.Met body Isolated) (Isolated q s) := by
  obtain ⟨term, f⟩ := q
  have hrefl : Rebound term f s.store s.store := .refl _
  cases term with
  | int | str | bool => exact hrefl
  | var name l =>
    cases h : s.store.lookup f name with
    | some v =>
      simp only [body, State.visit, h]
      exact hrefl
    | none =>
      simp only [body, State.visit, h]
      exact hrefl
  | function parameters functionBody l => exact .of_keeps fun _ _ h => h
  | binding name bound next l =>
    refine rebound_ask (by simp [Term.kind]) (.head _) hrefl ?_
    intro v t ht
    apply Plan.ensures_jump
    intro r u hr _
    have hnext := rebound_of_child (t := .binding name bound next l) (by simp [Term.kind])
      (.tail _ (.head _)) hr
    exact ht.trans (.trans (.bind (.head _) v) hnext)
  | conditional condition consequent alternative l =>
    refine rebound_ask (by simp [Term.kind]) (.head _) hrefl ?_
    intro v t ht
    apply Plan.ensures_jump
    intro r u hr _
    refine ht.trans (rebound_of_child (by simp [Term.kind]) ?_ hr)
    cases v.isTruthy <;> simp [Term.children]
  | binary op lhs rhs l =>
    refine rebound_ask (by simp [Term.kind]) (.head _) hrefl ?_
    intro a t ht
    refine rebound_ask (by simp [Term.kind]) (.tail _ (.head _)) ht ?_
    intro b u hu
    cases op.apply a b with
    | ok v => exact hu
    | error e => exact hu
  | print printed l => exact rebound_ask (by simp [Term.kind]) (.head _) hrefl fun v t ht => ht
  | tuple left right l =>
    refine rebound_ask (by simp [Term.kind]) (.head _) hrefl ?_
    intro a t ht
    exact rebound_ask (by simp [Term.kind]) (.tail _ (.head _)) ht fun b u hu => hu
  | first pair l =>
    refine rebound_ask (by simp [Term.kind]) (.head _) hrefl ?_
    intro v t ht
    cases v <;> exact ht
  | second pair l =>
    refine rebound_ask (by simp [Term.kind]) (.head _) hrefl ?_
    intro v t ht
    cases v <;> exact ht
  | call callee arguments l =>
    refine rebound_ask (by simp [Term.kind]) (.head _) hrefl ?_
    intro v t ht
    cases v with
    | closure c =>
      refine rebound_askAll (by simp [Term.kind]) (List.subset_cons_self callee arguments) ht ?_
      intro vs u hu
      refine (keeps_enterCall c vs ⟨calleeName callee, l⟩ u).imp ?_
      intro r w hw
      exact hu.trans (.of_keeps hw)
    | _ => exact ht

/-- An evaluation changes no frame but its own, and there binds only names that the term
binds outside its functions. -/
theorem rebound_of_yields {t : Term} {f : FrameId} {s u : State} {r : Outcome}
    (h : Plan.Yields body (body ⟨t, f⟩ s) r u) : Rebound t f s.store u.store :=
  h.keeps isolated_body

theorem keeps_of_advance_enterCall {c : Closure} {arguments : List Value} {call : Call}
    {s u : State} {r : Outcome} {fuel : Nat}
    (h : Plan.advance body fuel ⟨enterCall c arguments call s, []⟩ = .finished r u) :
    s.store.Keeps u.store := by
  cases Plan.settles_of_advance h with
  | last hy => exact hy.ensured isolated_body (keeps_enterCall c arguments call s)

end Evaluation

/-- However an evaluation ends, no frame but its own has changed; its own is under the
same parent, has lost no name, and differs at most in names that the term binds outside its
functions. However a call of a closure with evaluated arguments ends, no frame that was
there before it has changed. -/
theorem frames_isolated :
    (∀ (i j : Interpreter) (t : Term) (f : FrameId) (r : Outcome), i.Returns t f r j →
      (∀ g frame, g ≠ f → i.state.store.frame? g = some frame →
        j.state.store.frame? g = some frame) ∧
      ∀ frame, i.state.store.frame? f = some frame → ∃ later,
        j.state.store.frame? f = some later ∧ later.parent = frame.parent ∧
        (∀ name, frame.bindings.contains name = true → later.bindings.contains name = true) ∧
        ∀ name, name ∉ t.boundNames → later.bindings.get? name = frame.bindings.get? name) ∧
    ∀ (c : Closure) (arguments : List Value) (call : Call) (s u : Evaluation.State) (r : Outcome)
      (fuel : Nat),
      Plan.advance Evaluation.body fuel ⟨Evaluation.enterCall c arguments call s, []⟩ =
        .finished r u →
      ∀ g frame, s.store.frame? g = some frame → u.store.frame? g = some frame := by
  constructor
  · intro i j t f r h
    obtain ⟨-, hy⟩ := Interpreter.returns_iff_yields.mp h
    have hrebound := Evaluation.rebound_of_yields hy
    exact ⟨hrebound.other, hrebound.own⟩
  · intro c arguments call s u r fuel h
    exact Evaluation.keeps_of_advance_enterCall h

/-- A function that binds a name of its own, hides a name below its parameter, and fails. -/
def hidingFunction : Term :=
  .function [⟨"x", .unstated⟩]
    (.binding ⟨"y", .unstated⟩ (.var "x" .unstated)
      (.binary .add (.var "y" .unstated) (.var "z" .unstated) .unstated) .unstated) .unstated

def hidingCall : Term :=
  .binding ⟨"g", .unstated⟩ hidingFunction
    (.call (.var "g" .unstated) [.int 7 .unstated] .unstated) .unstated

/-- An interpreter whose root binds the name that the function hides. -/
def hidingHost : Interpreter :=
  let i := Interpreter.new none .silent false
  { i with state := i.state.bind i.root "x" (.int 1) }

/-- A closure that binds the same name in the frame of its call. -/
def hidingClosure : Closure where
  identity := 0
  parameters := []
  body := .binding ⟨"x", .unstated⟩ (.int 2 .unstated) (.int 3 .unstated) .unstated
  frame := hidingHost.root
  location := .unstated

theorem frames_isolated_hidingCall :
    (∃ e j later, hidingHost.Returns hidingCall hidingHost.root (.error e) j ∧
      j.state.store.frame? hidingHost.root = some later ∧
      later.bindings.get? "x" = some (.int 1) ∧ later.bindings.get? "y" = none) ∧
    ∃ r u, Plan.advance Evaluation.body 10
        ⟨Evaluation.enterCall hidingClosure [] ⟨"h", .unstated⟩ hidingHost.state, []⟩ =
          .finished r u ∧
      u.store.frame? hidingHost.root = some ⟨[("x", .int 1)], none⟩ := by
  have hroot : hidingHost.state.store.frame? hidingHost.root = some ⟨[("x", .int 1)], none⟩ := rfl
  constructor
  · have hrun : (hidingHost.evaluate 40 hidingCall hidingHost.root).map Prod.fst =
        some (.error ⟨.undefinedVariable "z", "undefined variable `z`", some .unstated,
          some ⟨[⟨"g", .unstated⟩]⟩, []⟩) := by
      cbv
    obtain ⟨⟨r, j⟩, hj, rfl⟩ := Option.map_eq_some_iff.mp hrun
    obtain ⟨later, hlater, -, -, hsame⟩ :=
      (frames_isolated.1 _ j hidingCall _ _ ⟨40, hj⟩).2 _ hroot
    exact ⟨_, j, later, ⟨40, hj⟩, hlater, hsame "x" (by decide), hsame "y" (by decide)⟩
  · have hcall : ∃ r u, Plan.advance Evaluation.body 10
        ⟨Evaluation.enterCall hidingClosure [] ⟨"h", .unstated⟩ hidingHost.state, []⟩ =
          .finished r u := ⟨_, _, rfl⟩
    obtain ⟨r, u, h⟩ := hcall
    exact ⟨r, u, h, frames_isolated.2 _ _ _ _ _ _ _ h _ _ hroot⟩

end TreeScript

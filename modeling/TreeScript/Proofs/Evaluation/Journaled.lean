import TreeScript.Proofs.Evaluation.Calls
import TreeScript.Proofs.Plan.Parallel
import TreeScript.Proofs.Store.Journal

/-!
Evaluations that keep a journal of the store: of each binding and of each frame that a call opens,
when it happens. Main statements: an evaluation goes as it does without a journal, and the journal
it keeps goes on to tell all that the store has come to.
-/
namespace TreeScript

namespace Evaluation

open Checks (Agree)

/-- A state, and the journal of its store. -/
structure Journaled where
  state : State
  journal : Journal

abbrev JournaledPlan := Plan Journaled Request Outcome

/-- The plan, with a journal to which it adds nothing itself. If it makes a call, it does so with
the first of the journals, otherwise it ends with the second. -/
def journaled (called J : Journal) : EvalPlan → JournaledPlan
  | .answer r s => .answer r ⟨s, J⟩
  | .jump q s => .jump q ⟨s, J⟩
  | .call q s k => .call q ⟨s, called⟩ fun r j => journaled j.journal j.journal (k r j.state)

/-- What the visit of a node does, journal included. A binding is entered when the name is bound,
and the frame of a call, with its parameters, when the body is called. -/
def journaledBody (q : Request) (j : Journaled) : JournaledPlan :=
  match q.term with
  | .binding name bound next _ =>
    .ask ⟨bound, q.frame⟩ ⟨j.state.visit, j.journal⟩ fun v j =>
    .jump ⟨next, q.frame⟩
      ⟨j.state.bind q.frame name.text v, .bound q.frame name.text v :: j.journal⟩
  | .call callee arguments l =>
    .ask ⟨callee, q.frame⟩ ⟨j.state.visit, j.journal⟩ fun v j =>
    match v with
    | .closure c =>
      .askAll (arguments.map fun t => ⟨t, q.frame⟩) j [] fun vs j =>
      journaled (j.journal.openChild ⟨j.state.store.frames.size⟩ c.frame c.parameters vs) j.journal
        (enterCall c vs ⟨calleeName callee, l⟩ j.state)
    | v => .answer (.error ((Failure.ofCause (.notCallable v.kind)).located l)) j
  | _ => journaled j.journal j.journal (body q j.state)

section Lockstep

/-- The same plans, but for the journal. -/
abbrev SamePlans : EvalPlan → JournaledPlan → Prop :=
  Plan.Parallel Eq (fun s j => j.state = s) (Agree Eq Eq)

theorem samePlans_journaled (called J : Journal) (p : EvalPlan) :
    SamePlans p (journaled called J p) := by
  induction p generalizing called J with
  | answer r s => exact .answer (Checks.agree_eq_iff.mpr rfl) rfl
  | jump q s => exact .jump rfl rfl
  | call q s k ih =>
    refine .call rfl rfl ?_
    rintro r r' t t' hr rfl
    obtain rfl := Checks.agree_eq_iff.mp hr
    exact ih r _ _ _

theorem samePlans_body {q q' : Request} {s : State} {j : Journaled} (hq : q = q')
    (hj : j.state = s) : SamePlans (body q s) (journaledBody q' j) := by
  subst hq hj
  obtain ⟨term, f⟩ := q
  cases term with
  | binding name bound next l =>
    refine Plan.parallel_ask rfl rfl ?_
    rintro v _ t u rfl rfl
    exact .jump rfl rfl
  | call callee arguments l =>
    refine Plan.parallel_ask rfl rfl ?_
    rintro v _ t u rfl rfl
    cases v with
    | closure c =>
      have hsame : List.Forall₂ Eq (arguments.map fun t => (⟨t, f⟩ : Request))
          (arguments.map fun t => ⟨t, f⟩) := List.forall₂_same.mpr fun _ _ => rfl
      refine Plan.parallel_askAll hsame rfl .nil ?_
      rintro vs vs' t u hvs rfl
      rw [List.forall₂_eq_eq_eq] at hvs
      subst hvs
      exact samePlans_journaled _ _ _
    | _ => exact .answer (Checks.agree_eq_iff.mpr rfl) rfl
  | _ => exact samePlans_journaled j.journal j.journal _

/-- An evaluation ends as it does without a journal. -/
theorem yields_iff_exists_journal {q : Request} {s u : State} {r : Outcome} (J : Journal) :
    Plan.Yields body (body q s) r u ↔
      ∃ K, Plan.Yields journaledBody (journaledBody q ⟨s, J⟩) r ⟨u, K⟩ := by
  constructor
  · intro h
    obtain ⟨r', ⟨u', K⟩, hrun, hr, rfl⟩ :=
      h.parallel (fun _ _ _ _ => samePlans_body) (samePlans_body (j := ⟨s, J⟩) rfl rfl)
    have hr : r = r' := Checks.agree_eq_iff.mp hr
    exact ⟨K, hr ▸ hrun⟩
  · rintro ⟨K, h⟩
    obtain ⟨r', u', hrun, hr, rfl⟩ := h.parallel
      (fun _ _ _ _ hq hj => (samePlans_body hq hj).symm) (samePlans_body rfl rfl).symm
    have hr : r' = r := Checks.agree_eq_iff.mp hr
    exact hr ▸ hrun

end Lockstep

section Records

/-- The journal after tells all that the store after has come to, and goes on from the one
before. -/
structure Continues (b u : Journaled) : Prop where
  records : u.state.store.Records u.journal
  journal : b.journal <:+ u.journal

/-- How an evaluation may end: what it gives is known to the store. -/
structure Faithful (b : Journaled) (r : Outcome) (u : Journaled) : Prop
    extends Continues b u where
  value : ∀ v, r = .ok v → u.state.store.Knows v

def KeepsJournal (q : Request) (b : Journaled) (r : Outcome) (u : Journaled) : Prop :=
  b.state.store.Records b.journal → b.state.store.Has q.frame → Faithful b r u

variable {b j u : Journaled} {f : FrameId}

theorem Continues.refl (h : b.state.store.Records b.journal) : Continues b b :=
  ⟨h, List.suffix_refl _⟩

theorem Continues.trans (h : Continues b j) (h' : Continues j u) : Continues b u :=
  ⟨h'.records, h.journal.trans h'.journal⟩

theorem Continues.has (hb : b.state.store.Records b.journal) (h : Continues b u)
    (hf : b.state.store.Has f) : u.state.store.Has f :=
  hb.has_mono h.records h.journal hf

theorem Continues.knows {v : Value} (hb : b.state.store.Records b.journal) (h : Continues b u)
    (hv : b.state.store.Knows v) : u.state.store.Knows v :=
  fun c hc => h.has hb (hv c hc)

/-- What changes no frame goes on with the same journal. -/
theorem Continues.of_frames {s : State} (h : Continues b j)
    (hs : s.store.frames = j.state.store.frames) : Continues b ⟨s, j.journal⟩ :=
  ⟨h.records.frames_eq hs, h.journal⟩

theorem Faithful.after {r : Outcome} (h : Continues b j) (h' : Faithful j r u) :
    Faithful b r u :=
  ⟨h.trans h'.toContinues, h'.value⟩

theorem Faithful.of_ok {v : Value} (h : Continues b u) (hv : u.state.store.Knows v) :
    Faithful b (.ok v) u where
  toContinues := h
  value := by
    rintro w ⟨⟩
    exact hv

theorem Faithful.of_error {e : Failure} (h : Continues b u) : Faithful b (.error e) u where
  toContinues := h
  value := by rintro v ⟨⟩

theorem Faithful.ok {v : Value} (h : Faithful b (.ok v) u) : u.state.store.Knows v :=
  h.value v rfl

theorem journaled_ask (called J : Journal) (q : Request) (s : State)
    (k : Value → State → EvalPlan) :
    journaled called J (.ask q s k) =
      .ask q ⟨s, called⟩ fun v j => journaled j.journal j.journal (k v j.state) := by
  rw [Plan.ask, journaled, Plan.ask]
  congr 1
  funext r j
  cases r <;> rfl

section Children
variable (hb : b.state.store.Records b.journal) (hf : b.state.store.Has f) (hj : Continues b j)
include hb hf hj

theorem faithful_ask {c : Term} {k : Value → Journaled → JournaledPlan}
    (hk : ∀ v u, Continues j u → u.state.store.Knows v →
      (k v u).Ensures (Plan.Met journaledBody KeepsJournal) (Faithful b)) :
    (Plan.ask ⟨c, f⟩ j k).Ensures (Plan.Met journaledBody KeepsJournal) (Faithful b) := by
  have hready : j.state.store.Has f := hj.has hb hf
  apply Plan.ensures_ask
  · intro v u hv _
    have hend := hv hj.records hready
    exact hk v u hend.toContinues hend.ok
  · intro e u he _
    exact (he hj.records hready).after hj

theorem faithful_askAll {cs : List Term} {k : List Value → Journaled → JournaledPlan}
    (hk : ∀ vs u, Continues j u → (∀ v ∈ vs, u.state.store.Knows v) →
      (k vs u).Ensures (Plan.Met journaledBody KeepsJournal) (Faithful b)) :
    (Plan.askAll (cs.map fun c => ⟨c, f⟩) j [] k).Ensures (Plan.Met journaledBody KeepsJournal)
      (Faithful b) := by
  refine Plan.ensures_askAll (I := fun _ vs u => Continues j u ∧
    ∀ v ∈ vs, u.state.store.Knows v) ?_ ?_ ?_ ?_
  · exact ⟨.refl hj.records, by simp⟩
  · intro c rest vs u v w hI hv _
    obtain ⟨hu, hvs⟩ := hI
    have hend := hv hu.records ((hj.trans hu).has hb hf)
    refine ⟨hu.trans hend.toContinues, List.forall_mem_cons.mpr ⟨hend.ok, ?_⟩⟩
    intro x hx
    exact hend.toContinues.knows hu.records (hvs x hx)
  · intro c rest vs u e w hI he _
    obtain ⟨hu, -⟩ := hI
    exact (he hu.records ((hj.trans hu).has hb hf)).after (hj.trans hu)
  · intro vs u hI
    exact hk vs.reverse u hI.1 fun v hv => hI.2 v (List.mem_reverse.mp hv)

end Children

/-- The frame of a call is entered into the journal with its parameters. -/
theorem Continues.called {c : Closure} {vs : List Value} (hj : Continues b j)
    (hc : j.state.store.Has c.frame) (hvs : ∀ v ∈ vs, j.state.store.Knows v) (call : Call) :
    Continues b ⟨j.state.called c vs call,
      j.journal.openChild ⟨j.state.store.frames.size⟩ c.frame c.parameters vs⟩ where
  records := hj.records.newChild hc c.parameters hvs
  journal := hj.journal.trans (Journal.suffix_openChild _ _ _ _ _)

theorem faithful_enterCall {c : Closure} {vs : List Value} (hj : Continues b j)
    (hc : j.state.store.Has c.frame) (hvs : ∀ v ∈ vs, j.state.store.Knows v) (call : Call) :
    Plan.Ensures (Plan.Met journaledBody KeepsJournal) (Faithful b)
      (journaled (j.journal.openChild ⟨j.state.store.frames.size⟩ c.frame c.parameters vs)
        j.journal (enterCall c vs call j.state)) := by
  refine enterCall_cases (P := fun p => Plan.Ensures _ _ (journaled _ _ p)) c vs call j.state
    ?_ ?_ ?_
  · intro _
    exact .of_error hj
  · intro limit _ _
    exact .of_error hj
  · intro _ _
    apply Plan.ensures_call
    intro r u hbody _
    have hcalled := hj.called hc hvs call
    have hnew : (j.state.called c vs call).store.Has ⟨j.state.store.frames.size⟩ :=
      ⟨_, (Store.frame?_newChild ..).trans (if_pos rfl)⟩
    have hend := (hbody hcalled.records hnew).after hcalled
    rw [leaveCall_eq]
    have hleft : Continues b ⟨u.state.leave, u.journal⟩ := hend.toContinues.of_frames rfl
    cases r with
    | ok v => exact .of_ok hleft hend.ok
    | error e => exact .of_error hleft

theorem sound_journaledBody (q : Request) (b : Journaled) :
    (journaledBody q b).Ensures (Plan.Met journaledBody KeepsJournal) (KeepsJournal q b) := by
  obtain ⟨term, f⟩ := q
  apply Plan.ensures_of_imp
  intro hb
  apply Plan.ensures_of_imp
  intro hf
  have hvisit : Continues b ⟨b.state.visit, b.journal⟩ := (Continues.refl hb).of_frames rfl
  cases term with
  | int | str | bool => exact .of_ok hvisit (Store.knows_of_closures rfl)
  | var name l =>
    simp only [journaledBody, body, State.visit]
    cases hv : b.state.store.lookup f name with
    | none => exact .of_error hvisit
    | some v => exact .of_ok hvisit (hb.knows_of_lookup hv)
  | binding name bound next l =>
    refine faithful_ask hb hf hvisit ?_
    intro v j hj hv
    have hbj := hvisit.trans hj
    have hbound : Continues b
        ⟨j.state.bind f name.text v, .bound f name.text v :: j.journal⟩ :=
      ⟨hbj.records.bind (hbj.has hb hf) hv name.text, hbj.journal.trans (List.suffix_cons _ _)⟩
    apply Plan.ensures_jump
    intro r u hr _
    exact (hr hbound.records (hbound.has hb hf)).after hbound
  | conditional condition consequent alternative l =>
    rw [journaledBody, body, journaled_ask]
    refine faithful_ask hb hf hvisit ?_
    intro v j hj _
    have hbj := hvisit.trans hj
    apply Plan.ensures_jump
    intro r u hr _
    exact (hr hbj.records (hbj.has hb hf)).after hbj
  | binary op lhs rhs l =>
    rw [journaledBody, body, journaled_ask]
    refine faithful_ask hb hf hvisit ?_
    intro x j hj _
    rw [journaled_ask]
    refine faithful_ask hb hf (hvisit.trans hj) ?_
    intro y u hu _
    have hbu := (hvisit.trans hj).trans hu
    cases h : op.apply x y with
    | ok v => exact .of_ok hbu (Store.knows_of_closures (Operator.closures_apply h))
    | error e => exact .of_error hbu
  | print printed l =>
    rw [journaledBody, body, journaled_ask]
    refine faithful_ask hb hf hvisit ?_
    intro v j hj hv
    exact .of_ok ((hvisit.trans hj).of_frames rfl) hv
  | tuple left right l =>
    rw [journaledBody, body, journaled_ask]
    refine faithful_ask hb hf hvisit ?_
    intro x j hj hx
    rw [journaled_ask]
    refine faithful_ask hb hf (hvisit.trans hj) ?_
    intro y u hu hy
    exact .of_ok ((hvisit.trans hj).trans hu)
      (Store.knows_tuple.mpr ⟨hu.knows hj.records hx, hy⟩)
  | first pair l =>
    rw [journaledBody, body, journaled_ask]
    refine faithful_ask hb hf hvisit ?_
    intro v j hj hv
    cases v with
    | tuple x y => exact .of_ok (hvisit.trans hj) (Store.knows_tuple.mp hv).1
    | _ => exact .of_error (hvisit.trans hj)
  | second pair l =>
    rw [journaledBody, body, journaled_ask]
    refine faithful_ask hb hf hvisit ?_
    intro v j hj hv
    cases v with
    | tuple x y => exact .of_ok (hvisit.trans hj) (Store.knows_tuple.mp hv).2
    | _ => exact .of_error (hvisit.trans hj)
  | function parameters functionBody l =>
    have hmade : Continues b
        ⟨(b.state.visit.newClosure parameters functionBody f l).2, b.journal⟩ :=
      (Continues.refl hb).of_frames rfl
    exact .of_ok hmade (Store.knows_closure.mpr hf)
  | call callee arguments l =>
    refine faithful_ask hb hf hvisit ?_
    intro v j hj hv
    cases v with
    | closure c =>
      refine faithful_askAll hb hf (hvisit.trans hj) ?_
      intro vs u hu hvs
      exact faithful_enterCall ((hvisit.trans hj).trans hu)
        (hu.has hj.records (Store.knows_closure.mp hv)) hvs _
    | _ => exact .of_error (hvisit.trans hj)

/-- An evaluation keeps its journal faithfully, however it ends. -/
theorem faithful_of_yields {t : Term} {r : Outcome} (hb : b.state.store.Records b.journal)
    (hf : b.state.store.Has f) (h : Plan.Yields journaledBody (journaledBody ⟨t, f⟩ b) r u) :
    Faithful b r u :=
  h.keeps sound_journaledBody hb hf

end Records

end Evaluation

namespace Interpreter

/-- The evaluation ends so, and has the journal go on to another. -/
def Journals (i : Interpreter) (t : Term) (f : FrameId) (J : Journal) (r : Outcome)
    (j : Interpreter) (K : Journal) : Prop :=
  j.root = i.root ∧ Plan.Yields Evaluation.journaledBody
    (Evaluation.journaledBody ⟨t, f⟩ ⟨i.state, J⟩) r ⟨j.state, K⟩

variable {i j : Interpreter} {t : Term} {f : FrameId} {J K : Journal} {r : Outcome}

theorem returns_iff_exists_journals (J : Journal) :
    i.Returns t f r j ↔ ∃ K, i.Journals t f J r j K := by
  rw [returns_iff_yields, Evaluation.yields_iff_exists_journal J, ← exists_and_left]
  rfl

theorem Journals.records (h : i.Journals t f J r j K) (hi : i.state.store.Records J)
    (hf : i.state.store.Has f) : j.state.store.Records K ∧ J <:+ K := by
  have hend := Evaluation.faithful_of_yields (b := ⟨i.state, J⟩) hi hf h.2
  exact ⟨hend.records, hend.journal⟩

end Interpreter

end TreeScript

import Mathlib
import TreeScript.Proofs.Evaluation.Limit

/-!
Two runs under different limits on nested calls. The run under the lower limit follows the
other one until it would enter one call too many. Main statement: it comes to the same end
when the deepest nesting is within its limit, and is refused at the limit when it is not.
-/
namespace TreeScript

namespace Evaluation
variable {m : Nat} {s t u : State}

/-- Calls are counted, and none was nested deeper than `m`. The limit of the state itself
is greater, if it has one. -/
structure Within (m : Nat) (s : State) : Prop where
  above : ∀ limit, s.stack.limit = some limit → m < limit
  deepest : ∃ d, s.deepest? = some d ∧ s.stack.depth ≤ d ∧ d ≤ m

namespace Within

theorem of_eq (h : Within m s) (hlimit : t.stack.limit = s.stack.limit)
    (hdeepest : t.deepest? = s.deepest?) (hdepth : t.stack.depth ≤ s.stack.depth) :
    Within m t where
  above := hlimit ▸ h.above
  deepest := by
    obtain ⟨d, hd, hle, hm⟩ := h.deepest
    exact ⟨d, hdeepest.trans hd, hdepth.trans hle, hm⟩

theorem visit (h : Within m s) : Within m s.visit :=
  h.of_eq rfl (deepest?_visit s) le_rfl

theorem bind (h : Within m s) (f : FrameId) (name : String) (v : Value) :
    Within m (s.bind f name v) :=
  h.of_eq rfl rfl le_rfl

theorem print (h : Within m s) (v : Value) : Within m (s.print v) :=
  h.of_eq rfl rfl le_rfl

theorem newClosure (h : Within m s) (parameters : List Parameter) (body : Term) (f : FrameId)
    (l : Location) : Within m (s.newClosure parameters body f l).2 :=
  h.of_eq rfl rfl le_rfl

theorem leave (h : Within m s) : Within m s.leave := by
  refine h.of_eq rfl rfl ?_
  rw [State.leave, CallStack.depth_pop]
  exact Nat.sub_le ..

theorem called (h : Within m s) (hroom : s.stack.depth < m) (c : Closure)
    (arguments : List Value) (call : Call) : Within m (s.called c arguments call) where
  above := h.above
  deepest := by
    obtain ⟨d, hd, -, hm⟩ := h.deepest
    refine ⟨max d (s.stack.depth + 1), deepest?_called hd c arguments call, ?_,
      max_le hm hroom⟩
    rw [State.called, CallStack.depth_enter]
    exact le_max_right ..

theorem depth_le (h : Within m s) : s.stack.depth ≤ m := by
  obtain ⟨d, -, hle, hm⟩ := h.deepest
  exact hle.trans hm

/-- The state itself allows one call more. -/
theorem exhausted?_eq_none (h : Within m s) : s.stack.exhausted? = none :=
  CallStack.exhausted?_eq_none_iff.mpr fun limit hlimit =>
    h.depth_le.trans_lt (h.above limit hlimit)

end Within

/-- The run was refused at the limit `m`, with as many calls in progress. -/
structure Overflowed (m : Nat) (e : Failure) (s : State) : Prop where
  cause : e.cause = .stackOverflow m
  deepest : s.deepest? = some m
  uncalled : m = 0 → e.backtrace = none
  called : 0 < m → ∃ b, e.backtrace = some b ∧ b.length = m

theorem overflowed_attach (hdepth : s.stack.depth = m) (hdeepest : s.deepest? = some m)
    (l : Location) :
    Overflowed m (s.stack.attach ((Failure.ofCause (.stackOverflow m)).located l)) s where
  cause := CallStack.cause_attach _ _
  deepest := hdeepest
  uncalled h := by
    rw [CallStack.attach_of_depth_zero (hdepth.trans h)]
    rfl
  called h := by
    rw [CallStack.attach_of_depth_pos (hdepth ▸ h) rfl]
    exact ⟨_, rfl, (CallStack.length_capture _).trans hdepth⟩

/-- The second plan does under the limit `m` what the first does, or refuses the call that
the first enters as the one too many. -/
inductive Follows (m : Nat) : EvalPlan → EvalPlan → Prop where
  | answer {r : Outcome} {s : State} :
      Within m s → Follows m (.answer r s) (.answer r (s.limited (some m)))
  | jump {q : Request} {s : State} :
      Within m s → Follows m (.jump q s) (.jump q (s.limited (some m)))
  | call {q : Request} {s : State} {k l : Outcome → State → EvalPlan} :
      Within m s → (∀ r t, Within m t → Follows m (k r t) (l r (t.limited (some m)))) →
      (∀ e t, Overflowed m e t → ∃ d u, l (.error e) t = .answer (.error d) u ∧
        Overflowed m d u ∧ u.printer = t.printer) →
      Follows m (.call q s k) (.call q (s.limited (some m)) l)
  | refused {q : Request} {s t : State} {k : Outcome → State → EvalPlan} {d : Nat} {e : Failure} :
      s.deepest? = some d → m < d → Overflowed m e t → t.printer = s.printer →
      Follows m (.call q s k) (.answer (.error e) t)

theorem follows_ask {q : Request} {k l : Value → State → EvalPlan} (hs : Within m s)
    (hk : ∀ v t, Within m t → Follows m (k v t) (l v (t.limited (some m)))) :
    Follows m (.ask q s k) (.ask q (s.limited (some m)) l) := by
  refine .call hs ?_ ?_
  · intro r t ht
    cases r with
    | ok v => exact hk v t ht
    | error e => exact .answer ht
  · intro e t he
    exact ⟨e, t, rfl, he, rfl⟩

theorem follows_askAll {qs : List Request} {answers : List Value}
    {k l : List Value → State → EvalPlan} (hs : Within m s)
    (hk : ∀ vs t, Within m t → Follows m (k vs t) (l vs (t.limited (some m)))) :
    Follows m (.askAll qs s answers k) (.askAll qs (s.limited (some m)) answers l) := by
  induction qs generalizing s answers with
  | nil => exact hk answers.reverse s hs
  | cons q qs ih => exact follows_ask hs fun v t ht => ih ht

theorem follows_enterCall (hs : Within m s) (c : Closure) (arguments : List Value) (call : Call) :
    Follows m (enterCall c arguments call s)
      (enterCall c arguments call (s.limited (some m))) := by
  by_cases h : arguments.length = c.arity
  · rw [enterCall_of_room c arguments call s h hs.exhausted?_eq_none]
    by_cases hroom : s.stack.depth < m
    · have hlimited : (s.limited (some m)).stack.exhausted? = none :=
        CallStack.exhausted?_eq_none_iff.mpr fun limit hlimit => Option.some.inj hlimit ▸ hroom
      rw [enterCall_of_room c arguments call _ h hlimited]
      refine .call (hs.called hroom c arguments call) ?_ ?_
      · intro r t ht
        rw [leaveCall_eq, leaveCall_eq]
        exact .answer ht.leave
      · intro e t he
        obtain ⟨b, hb, -⟩ := he.called (Nat.zero_lt_of_lt hroom)
        refine ⟨e, t.leave, ?_, ⟨he.cause, he.deepest, he.uncalled, he.called⟩, rfl⟩
        rw [leaveCall_eq, Except.mapError, CallStack.attach_of_isSome (by simp [hb])]
    · -- All of the limit is used up: the calls in progress are as many as it allows.
      obtain ⟨d, hd, hle, hm⟩ := hs.deepest
      have hdepth : s.stack.depth = m := by omega
      have hlimited : (s.limited (some m)).stack.exhausted? = some m :=
        CallStack.exhausted?_eq_some_iff.mpr ⟨rfl, Nat.le_of_eq hdepth.symm⟩
      rw [enterCall_of_exhausted c arguments call _ h hlimited]
      have hdeepest : s.deepest? = some m := by
        rw [hd, Option.some.injEq]
        omega
      have hover : m < max d (s.stack.depth + 1) := by omega
      exact .refused (deepest?_called hd c arguments call) hover
        (overflowed_attach (s := s.limited (some m)) hdepth hdeepest call.location) rfl
  · rw [enterCall_of_arity c arguments call s h, enterCall_of_arity c arguments call _ h]
    exact .answer hs

theorem follows_body (hs : Within m s) (q : Request) :
    Follows m (body q s) (body q (s.limited (some m))) := by
  obtain ⟨term, f⟩ := q
  have hvisit : Within m s.visit := hs.visit
  cases term with
  | int | str | bool => exact .answer hvisit
  | var name l =>
    cases h : s.store.lookup f name with
    | some v =>
      simp only [body, State.visit, State.limited, h]
      exact .answer hvisit
    | none =>
      simp only [body, State.visit, State.limited, h]
      exact .answer hvisit
  | function parameters functionBody l =>
    exact .answer (hvisit.newClosure parameters functionBody f l)
  | binding name bound next l =>
    exact follows_ask hvisit fun v t ht => .jump (ht.bind f name.text v)
  | conditional condition consequent alternative l =>
    exact follows_ask hvisit fun v t ht => .jump ht
  | binary op lhs rhs l =>
    refine follows_ask hvisit fun a t ht => follows_ask ht fun b u hu => ?_
    cases op.apply a b with
    | ok v => exact .answer hu
    | error e => exact .answer hu
  | print printed l => exact follows_ask hvisit fun v t ht => .answer (ht.print v)
  | tuple left right l =>
    exact follows_ask hvisit fun a t ht => follows_ask ht fun b u hu => .answer hu
  | first pair l =>
    refine follows_ask hvisit fun v t ht => ?_
    cases v <;> exact .answer ht
  | second pair l =>
    refine follows_ask hvisit fun v t ht => ?_
    cases v <;> exact .answer ht
  | call callee arguments l =>
    refine follows_ask hvisit fun v t ht => ?_
    cases v with
    | closure c =>
      exact follows_askAll ht fun vs u hu => follows_enterCall hu c vs ⟨calleeName callee, l⟩
    | _ => exact .answer ht

/-- A run that ends in `u` nests more than `m` calls, and the plan is refused at the limit `m`
with a part of what the run prints. -/
structure CutShort (m : Nat) (p : EvalPlan) (u : State) : Prop where
  deeper : ∃ d, u.deepest? = some d ∧ m < d
  refused : ∃ e t, Plan.Yields body p (.error e) t ∧ Overflowed m e t ∧
    ∃ text, u.printer.held = t.printer.held ++ text

theorem CutShort.map {p p' : EvalPlan} (h : CutShort m p u)
    (hp : ∀ e t, Plan.Yields body p (.error e) t → Plan.Yields body p' (.error e) t) :
    CutShort m p' u := by
  obtain ⟨e, t, hy, he, htext⟩ := h.refused
  exact ⟨h.deeper, e, t, hp e t hy, he, htext⟩

theorem CutShort.of_steps {p : EvalPlan} {d : Nat} {e : Failure} {text : String}
    (hd : s.deepest? = some d) (hlt : m < d) (hy : Plan.Yields body p (.error e) t)
    (he : Overflowed m e t) (htext : s.printer.held = t.printer.held ++ text)
    (hsu : Steps s u) : CutShort m p u := by
  obtain ⟨n, hn, hle⟩ := deepest_le_of_steps hsu hd
  obtain ⟨more, hmore⟩ := printed_of_steps hsu
  refine ⟨⟨n, hn, hlt.trans_le hle⟩, e, t, hy, he, text ++ more, ?_⟩
  rw [hmore, htext, String.append_assoc]

/-- A run that stays within the limit `m` is the run under `m`. Under `m`, a run that does
not is cut short. -/
theorem Follows.yields {p p' : EvalPlan} {r : Outcome} (hp : Follows m p p')
    (hs : p.Ascends Steps s) (h : Plan.Yields body p r u) :
    (Within m u ∧ Plan.Yields body p' r (u.limited (some m))) ∨ CutShort m p' u := by
  -- Induction on the run under the higher limit.
  induction h generalizing p' s with
  | answer r u =>
    cases hp with
    | answer hu => exact .inl ⟨hu, .answer _ _⟩
  | @jump q t r u hq ih =>
    cases hp with
    | jump ht =>
      rcases ih (follows_body ht q) (ascends_body q t) with ⟨hu, hy⟩ | hcut
      · exact .inl ⟨hu, .jump hy⟩
      · exact .inr (hcut.map fun e v => .jump)
  | @call q t u w k r r' hq hk ihq ihk =>
    have htu : Steps t u := steps_of_yields hq
    have huw : Steps u w := steps_of_ascends (hs.2 r u htu) hk
    cases hp with
    | call ht hanswer hoverflow =>
      rcases ihq (follows_body ht q) (ascends_body q t) with ⟨hu, hy⟩ | hcut
      · rcases ihk (hanswer r u hu) (hs.2 r u htu) with ⟨hw, hz⟩ | hcut
        · exact .inl ⟨hw, .call hy hz⟩
        · exact .inr (hcut.map fun e v => .call hy)
      · -- The child was refused, and its parent hands the refusal on.
        obtain ⟨⟨d, hd, hlt⟩, e, v, hy, he, text, htext⟩ := hcut
        obtain ⟨e', v', heq, he', hprinter⟩ := hoverflow e v he
        rw [← hprinter] at htext
        exact .inr (.of_steps hd hlt (.call hy (heq ▸ .answer _ _)) he' htext huw)
    | @refused _ t v _ d e hd hlt he hprinter =>
      have htext : t.printer.held = v.printer.held ++ "" := by simp [hprinter]
      exact .inr (.of_steps hd hlt (.answer _ _) he htext (htu.trans huw))

/-- A run under the limit `m` is refused or is the run under the higher limit. -/
theorem Follows.yielded {p p' : EvalPlan} {r : Outcome} (hp : Follows m p p')
    (h : Plan.Yields body p' r u) :
    (∃ e, r = .error e ∧ Overflowed m e u) ∨
      ∃ t, Within m t ∧ u = t.limited (some m) ∧ Plan.Yields body p r t := by
  -- Induction on the run under `m`.
  induction h generalizing p with
  | answer r u =>
    cases hp with
    | answer ht => exact .inr ⟨_, ht, rfl, .answer _ _⟩
    | refused _ _ he _ => exact .inl ⟨_, rfl, he⟩
  | @jump q t r u hq ih =>
    cases hp with
    | @jump _ t ht =>
      rcases ih (follows_body ht q) with hover | ⟨v, hv, hu, hy⟩
      · exact .inl hover
      · exact .inr ⟨v, hv, hu, .jump hy⟩
  | @call q t u w k r r' hq hk ihq ihk =>
    cases hp with
    | @call _ t _ _ ht hanswer hoverflow =>
      rcases ihq (follows_body ht q) with ⟨e, rfl, he⟩ | ⟨v, hv, rfl, hy⟩
      · obtain ⟨e', u', heq, he', -⟩ := hoverflow e u he
        rw [heq] at hk
        obtain ⟨rfl, rfl⟩ := hk.of_answer
        exact .inl ⟨e', rfl, he'⟩
      · rcases ihk (hanswer r v hv) with hover | ⟨z, hz, hw, hyz⟩
        · exact .inl hover
        · exact .inr ⟨z, hz, hw, .call hy hyz⟩

end Evaluation

namespace Interpreter

/-- An interpreter that starts to count, with no call in progress. -/
def profiled (root : FrameId) (store : Store) (printer : Printer) (limit : Option Nat) :
    Interpreter :=
  ⟨root, ⟨store, printer, .empty limit, some .zero⟩⟩

/-- The same interpreter under another limit. -/
def limited (limit : Option Nat) (i : Interpreter) : Interpreter :=
  { i with state := i.state.limited limit }

/-- No moment of the evaluation has more than `m` calls in progress. -/
def NeverDeeper (m : Nat) (i : Interpreter) (t : Term) (f : FrameId) : Prop :=
  ∀ fuel c, Plan.advance Evaluation.body fuel (Plan.start ⟨t, f⟩ i.state) = .unfinished c →
    c.plan.state.stack.depth ≤ m

/-- The evaluation ended for a limit on nested calls. -/
def Refused (r : Outcome) : Prop := ∃ e n, r = .error e ∧ e.cause = .stackOverflow n

section Profiled
variable {root : FrameId} {store : Store} {printer : Printer} {t : Term} {f : FrameId}
  {limit : Option Nat} {m : Nat} {r : Outcome} {i j : Interpreter}

open Evaluation

theorem limited_of_returns (h : i.Returns t f r j) : j.limited i.state.stack.limit = j := by
  obtain ⟨-, hy⟩ := returns_iff_yields.mp h
  rw [← limit_of_steps (steps_of_yields hy)]
  rfl

theorem within_profiled (hlimit : ∀ n, limit = some n → m < n) :
    Within m (profiled root store printer limit).state :=
  ⟨hlimit, 0, rfl, Nat.le_refl 0, Nat.zero_le m⟩

theorem neverDeeper_profiled : (profiled root store printer (some m)).NeverDeeper m t f :=
  fun _ _ h => depth_le_of_steps (steps_of_advance h) rfl (Nat.zero_le m)

/-- Only a limit refuses. -/
theorem not_refused_of_unlimited (h : (profiled root store printer none).Returns t f r j) :
    ¬ Refused r := by
  rintro ⟨e, n, rfl, he⟩
  cases limit_of_stackOverflow (returns_iff_yields.mp h).2 he

/-- What is not refused at a limit is the same above it. -/
theorem returns_above (h : (profiled root store printer (some m)).Returns t f r j)
    (hr : ¬ Refused r) (hlimit : ∀ n, limit = some n → m < n) :
    (profiled root store printer limit).Returns t f r (j.limited limit) := by
  obtain ⟨hroot, hy⟩ := returns_iff_yields.mp h
  have hwithin : Within m (profiled root store printer limit).state := within_profiled hlimit
  rcases (follows_body hwithin ⟨t, f⟩).yielded hy with ⟨e, rfl, he⟩ | ⟨u, -, hu, hyu⟩
  · exact absurd ⟨e, m, rfl, he.cause⟩ hr
  · have hreturns : (profiled root store printer limit).Returns t f r ⟨root, u⟩ :=
      returns_iff_yields.mpr ⟨rfl, hyu⟩
    have hj : j.limited limit = ⟨root, u⟩ := by
      rw [← limited_of_returns hreturns]
      obtain ⟨root', s⟩ := j
      cases hroot
      cases hu
      rfl
    exact hj ▸ hreturns

theorem exists_deepest (h : (profiled root store printer none).Returns t f r j) :
    ∃ d, j.state.deepest? = some d := by
  have hsteps := steps_of_yields (returns_iff_yields.mp h).2
  obtain ⟨d, hd, -⟩ := deepest_le_of_steps (d := 0) hsteps rfl
  exact ⟨d, hd⟩

theorem returns_within {d : Nat} (h : (profiled root store printer none).Returns t f r j)
    (hd : j.state.deepest? = some d) (hm : d ≤ m) :
    (profiled root store printer (some m)).Returns t f r (j.limited (some m)) := by
  obtain ⟨hroot, hy⟩ := returns_iff_yields.mp h
  have hwithin : Within m (profiled root store printer none).state := within_profiled (by simp)
  rcases (follows_body hwithin ⟨t, f⟩).yields (ascends_body _ _) hy with ⟨-, hym⟩ | hcut
  · exact returns_iff_yields.mpr ⟨hroot, hym⟩
  · obtain ⟨n, hn, hlt⟩ := hcut.deeper
    have hnd : n = d := Option.some.inj (hn.symm.trans hd)
    omega

theorem overflowed_below {d : Nat} (h : (profiled root store printer none).Returns t f r j)
    (hd : j.state.deepest? = some d) (hm : m < d) :
    ∃ e k, (profiled root store printer (some m)).Returns t f (.error e) k ∧
      Overflowed m e k.state ∧
      ∃ text, j.state.printer.held = k.state.printer.held ++ text := by
  have hwithin : Within m (profiled root store printer none).state := within_profiled (by simp)
  obtain ⟨-, hy⟩ := returns_iff_yields.mp h
  rcases (follows_body hwithin ⟨t, f⟩).yields (ascends_body _ _) hy with ⟨hj, -⟩ | hcut
  · obtain ⟨n, hn, -, hle⟩ := hj.deepest
    have hnd : n = d := Option.some.inj (hn.symm.trans hd)
    omega
  · obtain ⟨e, u, hyu, he, htext⟩ := hcut.refused
    exact ⟨e, ⟨root, u⟩, returns_iff_yields.mpr ⟨rfl, hyu⟩, he, htext⟩

end Profiled

end Interpreter

open Evaluation Interpreter

/-- The limit on nested calls is an exact threshold. Without a limit nothing is refused, and
what is not refused at a limit has the same result, output, frames and counts at every
greater one and at none. An evaluation whose deepest nesting is `d` is the same at each limit
from `d` on. At each limit below it is refused there, with as many calls in progress as the
limit allows and a part of the output. -/
theorem depth_limit_exact (root : FrameId) (store : Store) (printer : Printer) (t : Term)
    (f : FrameId) :
    (∀ r j, (profiled root store printer none).Returns t f r j → ¬ Refused r) ∧
    (∀ m r j, (profiled root store printer (some m)).Returns t f r j → ¬ Refused r →
      ∀ limit, (∀ n, limit = some n → m ≤ n) →
        (profiled root store printer limit).Returns t f r (j.limited limit)) ∧
    ∀ r j, (profiled root store printer none).Returns t f r j →
      ∃ d, j.state.deepest? = some d ∧
        (∀ m, d ≤ m → (profiled root store printer (some m)).Returns t f r (j.limited (some m))) ∧
        ∀ m, m < d → (profiled root store printer (some m)).NeverDeeper m t f ∧
          ∃ e k, (profiled root store printer (some m)).Returns t f (.error e) k ∧
            Overflowed m e k.state ∧
            ∃ text, j.state.printer.held = k.state.printer.held ++ text := by
  refine ⟨fun r j h => not_refused_of_unlimited h, ?_, ?_⟩
  · intro m r j h hr limit hlimit
    by_cases heq : limit = some m
    · subst heq
      have hj : j.limited (some m) = j := limited_of_returns h
      exact hj.symm ▸ h
    · refine returns_above h hr fun n hn => (hlimit n hn).lt_of_ne ?_
      rintro rfl
      exact heq hn
  · intro r j h
    obtain ⟨d, hd⟩ := exists_deepest h
    refine ⟨d, hd, fun m hm => returns_within h hd hm, ?_⟩
    intro m hm
    exact ⟨neverDeeper_profiled, overflowed_below h hd hm⟩

/-- A function that prints its argument and calls itself down to zero. -/
def printdown : Term :=
  .binding ⟨"f", .unstated⟩
    (.function [⟨"n", .unstated⟩]
      (.conditional (.print (.var "n" .unstated) .unstated)
        (.call (.var "f" .unstated)
          [.binary .sub (.var "n" .unstated) (.int 1 .unstated) .unstated] .unstated)
        (.var "n" .unstated) .unstated) .unstated)
    (.call (.var "f" .unstated) [.int 2 .unstated] .unstated) .unstated

theorem depth_limit_exact_printdown :
    ∃ j d, (profiled ⟨0⟩ ⟨#[⟨[], none⟩], 0⟩ (.new .buffer) none).Returns printdown ⟨0⟩
        (.ok (.int 0)) j ∧
      j.state.deepest? = some d ∧ 1 < d ∧
      ∃ e k, (profiled ⟨0⟩ ⟨#[⟨[], none⟩], 0⟩ (.new .buffer) (some 1)).Returns printdown ⟨0⟩
          (.error e) k ∧
        Overflowed 1 e k.state ∧ ∃ text, j.state.printer.held = k.state.printer.held ++ text := by
  have hthree : ((profiled ⟨0⟩ ⟨#[⟨[], none⟩], 0⟩ (.new .buffer) (some 3)).evaluate 90 printdown
      ⟨0⟩).map Prod.fst = some (.ok (.int 0)) := by
    cbv
  have hone : ((profiled ⟨0⟩ ⟨#[⟨[], none⟩], 0⟩ (.new .buffer) (some 1)).evaluate 90 printdown
      ⟨0⟩).map Prod.fst =
      some (.error ⟨.stackOverflow 1, "maximum call depth of 1 exceeded", some .unstated,
        some ⟨[⟨"f", .unstated⟩]⟩, []⟩) := by
    cbv
  obtain ⟨⟨r, j⟩, hj, rfl⟩ := Option.map_eq_some_iff.mp hthree
  obtain ⟨⟨r, k⟩, hk, rfl⟩ := Option.map_eq_some_iff.mp hone
  obtain ⟨-, hsame, hexact⟩ := depth_limit_exact ⟨0⟩ ⟨#[⟨[], none⟩], 0⟩ (.new .buffer)
    printdown ⟨0⟩
  have hrefused : ¬ Refused (.ok (.int 0)) := by
    rintro ⟨e, n, he, -⟩
    cases he
  have hunlimited := hsame 3 _ j ⟨90, hj⟩ hrefused none (by simp)
  obtain ⟨d, hd, habove, hbelow⟩ := hexact _ _ hunlimited
  have hlt : 1 < d := by
    by_contra hle
    have hok := habove 1 (Nat.le_of_not_lt hle)
    cases (hok.unique ⟨90, hk⟩).1
  obtain ⟨-, e, k, hk, he, htext⟩ := hbelow 1 hlt
  exact ⟨_, d, hunlimited, hd, hlt, e, k, hk, he, htext⟩

end TreeScript

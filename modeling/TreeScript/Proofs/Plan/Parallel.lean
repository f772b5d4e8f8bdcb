import Mathlib.Data.List.Forall2
import TreeScript.Checks
import TreeScript.Proofs.Plan.History

/-!
Two recursions side by side. Their plans run in parallel when they make related requests in
related states, and go on in parallel whenever the answers and the states after them are
related. Main statement: where the plans for related requests run in parallel, the two runs end
together, with related answers, states and histories.
-/
namespace TreeScript

namespace Checks
variable {ε ε' α α' : Type} {E : ε → ε' → Prop} {V : α → α' → Prop}

/-- Both succeed with related values, or both fail with related failures. -/
inductive Agree (E : ε → ε' → Prop) (V : α → α' → Prop) : Except ε α → Except ε' α' → Prop where
  | ok {a : α} {a' : α'} : V a a' → Agree E V (.ok a) (.ok a')
  | error {e : ε} {e' : ε'} : E e e' → Agree E V (.error e) (.error e')

theorem agree_refl {V : α → α → Prop} (hV : ∀ a, V a a) (r : Except ε α) : Agree Eq V r r := by
  cases r with
  | ok a => exact .ok (hV a)
  | error e => exact .error rfl

@[simp] theorem agree_eq_iff {r r' : Except ε α} : Agree Eq Eq r r' ↔ r = r' := by
  constructor
  · intro h
    cases h with
    | ok h => rw [h]
    | error h => rw [h]
  · rintro rfl
    exact agree_refl (fun _ => rfl) r

theorem Agree.bind {β β' : Type} {W : β → β' → Prop} {r : Except ε α} {r' : Except ε' α'}
    {f : α → Except ε β} {f' : α' → Except ε' β'} (h : Agree E V r r')
    (hf : ∀ a a', V a a' → Agree E W (f a) (f' a')) : Agree E W (r >>= f) (r' >>= f') := by
  cases h with
  | ok ha => exact hf _ _ ha
  | error he => exact .error he

/-- What holds of the two values may use that they are there. -/
theorem rel_imp {P P' : α → α' → Prop} {o : Option α} {o' : Option α'} (h : Option.Rel P o o')
    (himp : ∀ x x', o = some x → o' = some x' → P x x' → P' x x') : Option.Rel P' o o' := by
  cases h with
  | some hx => exact .some (himp _ _ rfl rfl hx)
  | none => exact .none

/-- Two values that are both related to a third, if there is one. -/
theorem rel_join {β : Type} {P : α → β → Prop} {P' : α' → β → Prop} {o : Option α}
    {o' : Option α'} {m : Option β} (h : Option.Rel P o m) (h' : Option.Rel P' o' m) :
    Option.Rel (fun x x' => ∃ y, P x y ∧ P' x' y) o o' := by
  cases h with
  | some hx =>
    cases h' with
    | some hx' => exact .some ⟨_, hx, hx'⟩
  | none =>
    cases h' with
    | none => exact .none

end Checks

namespace Plan

open Checks (Agree)

variable {σ σ' ρ ρ' α α' : Type} {body : ρ → σ → Plan σ ρ α} {body' : ρ' → σ' → Plan σ' ρ' α'}
  {Q : ρ → ρ' → Prop} {S : σ → σ' → Prop} {A : α → α' → Prop}

inductive Parallel (Q : ρ → ρ' → Prop) (S : σ → σ' → Prop) (A : α → α' → Prop) :
    Plan σ ρ α → Plan σ' ρ' α' → Prop where
  | answer {a : α} {a' : α'} {s : σ} {s' : σ'} :
      A a a' → S s s' → Parallel Q S A (.answer a s) (.answer a' s')
  | jump {q : ρ} {q' : ρ'} {s : σ} {s' : σ'} :
      Q q q' → S s s' → Parallel Q S A (.jump q s) (.jump q' s')
  | call {q : ρ} {q' : ρ'} {s : σ} {s' : σ'} {k : α → σ → Plan σ ρ α}
      {k' : α' → σ' → Plan σ' ρ' α'} :
      Q q q' → S s s' →
      (∀ a a' t t', A a a' → S t t' → Parallel Q S A (k a t) (k' a' t')) →
      Parallel Q S A (.call q s k) (.call q' s' k')

theorem Parallel.symm {p : Plan σ ρ α} {p' : Plan σ' ρ' α'} (h : Parallel Q S A p p') :
    Parallel (flip Q) (flip S) (flip A) p' p := by
  induction h with
  | answer ha hs => exact .answer ha hs
  | jump hq hs => exact .jump hq hs
  | call hq hs _ ih => exact .call hq hs fun a' a t' t ha ht => ih a a' t t' ha ht

/-- Histories of related requests with related answers. -/
abbrev SameHistory (Q : ρ → ρ' → Prop) (A : α → α' → Prop) :
    List (ρ × α) → List (ρ' × α') → Prop :=
  List.Forall₂ fun x x' => Q x.1 x'.1 ∧ A x.2 x'.2

theorem Recounts.parallel
    (hbody : ∀ q q' s s', Q q q' → S s s' → Parallel Q S A (body q s) (body' q' s'))
    {p : Plan σ ρ α} {p' : Plan σ' ρ' α'} {history : List (ρ × α)} {a : α} {t : σ}
    (h : Recounts body p history a t) (hp : Parallel Q S A p p') :
    ∃ history' a' t', Recounts body' p' history' a' t' ∧ SameHistory Q A history history' ∧
      A a a' ∧ S t t' := by
  induction h generalizing p' with
  | answer a s =>
    cases hp with
    | answer ha hs => exact ⟨[], _, _, .answer _ _, .nil, ha, hs⟩
  | jump _ ih =>
    cases hp with
    | jump hq hs =>
      obtain ⟨history', a', t', hrun, hsame, ha, ht⟩ := ih (hbody _ _ _ _ hq hs)
      exact ⟨_, a', t', .jump hrun, List.rel_append hsame (.cons ⟨hq, ha⟩ .nil), ha, ht⟩
  | call _ _ ihq ihk =>
    cases hp with
    | call hq hs hk =>
      obtain ⟨before', a', t', hrun, hbefore, ha, ht⟩ := ihq (hbody _ _ _ _ hq hs)
      obtain ⟨after', b', u', hrest, hafter, hb, hu⟩ := ihk (hk _ _ _ _ ha ht)
      exact ⟨_, b', u', .call hrun hrest, List.rel_append hbefore (.cons ⟨hq, ha⟩ hafter), hb, hu⟩

/-- Where the first run ends, so does the second. -/
theorem Yields.parallel
    (hbody : ∀ q q' s s', Q q q' → S s s' → Parallel Q S A (body q s) (body' q' s'))
    {p : Plan σ ρ α} {p' : Plan σ' ρ' α'} {a : α} {t : σ} (h : Yields body p a t)
    (hp : Parallel Q S A p p') : ∃ a' t', Yields body' p' a' t' ∧ A a a' ∧ S t t' := by
  obtain ⟨history, hrun⟩ := h.exists_recounts
  obtain ⟨_, a', t', hrun', -, ha, ht⟩ := hrun.parallel hbody hp
  exact ⟨a', t', hrun'.yields, ha, ht⟩

section Fuel

/-- What waits for related answers goes on in parallel. -/
def Await (Q : ρ → ρ' → Prop) (S : σ → σ' → Prop) (A : α → α' → Prop)
    (k : α → σ → Plan σ ρ α) (k' : α' → σ' → Plan σ' ρ' α') : Prop :=
  ∀ a a' t t', A a a' → S t t' → Parallel Q S A (k a t) (k' a' t')

/-- Both runs are at their ends, or neither is. -/
inductive Progress.Parallel (Q : ρ → ρ' → Prop) (S : σ → σ' → Prop) (A : α → α' → Prop) :
    Progress σ ρ α → Progress σ' ρ' α' → Prop where
  | finished {a : α} {a' : α'} {s : σ} {s' : σ'} :
      A a a' → S s s' → Progress.Parallel Q S A (.finished a s) (.finished a' s')
  | unfinished {p : Plan σ ρ α} {p' : Plan σ' ρ' α'} {ks : List (α → σ → Plan σ ρ α)}
      {ks' : List (α' → σ' → Plan σ' ρ' α')} :
      Plan.Parallel Q S A p p' → List.Forall₂ (Await Q S A) ks ks' →
      Progress.Parallel Q S A (.unfinished ⟨p, ks⟩) (.unfinished ⟨p', ks'⟩)

variable (hbody : ∀ q q' s s', Q q q' → S s s' → Parallel Q S A (body q s) (body' q' s'))
include hbody

theorem parallel_step {p : Plan σ ρ α} {p' : Plan σ' ρ' α'} {ks : List (α → σ → Plan σ ρ α)}
    {ks' : List (α' → σ' → Plan σ' ρ' α')} (hp : Parallel Q S A p p')
    (hks : List.Forall₂ (Await Q S A) ks ks') :
    Progress.Parallel Q S A (step body ⟨p, ks⟩) (step body' ⟨p', ks'⟩) := by
  cases hp with
  | answer ha hs =>
    cases hks with
    | nil => exact .finished ha hs
    | cons hk hks => exact .unfinished (hk _ _ _ _ ha hs) hks
  | jump hq hs => exact .unfinished (hbody _ _ _ _ hq hs) hks
  | call hq hs hk => exact .unfinished (hbody _ _ _ _ hq hs) (.cons hk hks)

theorem parallel_advance (fuel : Nat) {p : Plan σ ρ α} {p' : Plan σ' ρ' α'}
    {ks : List (α → σ → Plan σ ρ α)} {ks' : List (α' → σ' → Plan σ' ρ' α')}
    (hp : Parallel Q S A p p') (hks : List.Forall₂ (Await Q S A) ks ks') :
    Progress.Parallel Q S A (advance body fuel ⟨p, ks⟩) (advance body' fuel ⟨p', ks'⟩) := by
  induction fuel generalizing p p' ks ks' with
  | zero => exact .unfinished hp hks
  | succ fuel ih =>
    have hstep := parallel_step hbody hp hks
    simp only [advance]
    generalize step body ⟨p, ks⟩ = c at hstep ⊢
    generalize step body' ⟨p', ks'⟩ = c' at hstep ⊢
    cases hstep with
    | finished ha hs => exact .finished ha hs
    | unfinished hq hrest => exact ih hq hrest

/-- With the same fuel both runs come to an end, or neither does. -/
theorem parallel_run (fuel : Nat) {q : ρ} {q' : ρ'} {s : σ} {s' : σ'} (hq : Q q q') (hs : S s s') :
    Option.Rel (fun x x' => A x.1 x'.1 ∧ S x.2 x'.2) (run body fuel q s)
      (run body' fuel q' s') := by
  have h := parallel_advance hbody fuel (.jump hq hs) .nil
  unfold run start
  generalize advance body fuel _ = c at h ⊢
  generalize advance body' fuel _ = c' at h ⊢
  cases h with
  | finished ha hs => exact .some ⟨ha, hs⟩
  | unfinished _ _ => exact .none

end Fuel

section Attempts
variable {ε ε' : Type} {E : ε → ε' → Prop} {V : α → α' → Prop}

theorem parallel_ask {q : ρ} {q' : ρ'} {s : σ} {s' : σ'} {k : α → σ → Plan σ ρ (Except ε α)}
    {k' : α' → σ' → Plan σ' ρ' (Except ε' α')} (hq : Q q q') (hs : S s s')
    (hk : ∀ a a' t t', V a a' → S t t' → Parallel Q S (Agree E V) (k a t) (k' a' t')) :
    Parallel Q S (Agree E V) (ask q s k) (ask q' s' k') := by
  refine .call hq hs ?_
  intro r r' t t' hr ht
  cases hr with
  | ok ha => exact hk _ _ t t' ha ht
  | error he => exact .answer (.error he) ht

theorem parallel_askAll {qs : List ρ} {qs' : List ρ'} {s : σ} {s' : σ'} {answers : List α}
    {answers' : List α'} {k : List α → σ → Plan σ ρ (Except ε α)}
    {k' : List α' → σ' → Plan σ' ρ' (Except ε' α')} (hqs : List.Forall₂ Q qs qs')
    (hs : S s s') (hanswers : List.Forall₂ V answers answers')
    (hk : ∀ as as' t t', List.Forall₂ V as as' → S t t' →
      Parallel Q S (Agree E V) (k as t) (k' as' t')) :
    Parallel Q S (Agree E V) (askAll qs s answers k) (askAll qs' s' answers' k') := by
  induction hqs generalizing s s' answers answers' with
  | nil => exact hk _ _ s s' (List.rel_reverse hanswers) hs
  | cons hq _ ih =>
    exact parallel_ask hq hs fun a a' t t' ha ht => ih ht (.cons ha hanswers)

theorem parallel_require {β β' : Type} {W : β → β' → Prop} {e : Except ε β} {e' : Except ε' β'}
    {s : σ} {s' : σ'} {k : β → Plan σ ρ (Except ε α)} {k' : β' → Plan σ' ρ' (Except ε' α')}
    (hs : S s s') (he : Agree E W e e')
    (hk : ∀ b b', W b b' → Parallel Q S (Agree E V) (k b) (k' b')) :
    Parallel Q S (Agree E V) (require e s k) (require e' s' k') := by
  cases he with
  | ok hb => exact hk _ _ hb
  | error he => exact .answer (.error he) hs

end Attempts

end Plan

end TreeScript

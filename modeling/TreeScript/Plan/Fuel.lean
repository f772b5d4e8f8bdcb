import TreeScript.Plan.Basic

/-!
Runs on fuel and the plain meaning of plans. Main statement: some fuel gives a request
an answer exactly when the recursion that the body describes does.
-/
namespace TreeScript.Plan

variable {σ ρ α : Type} {body : ρ → σ → Plan σ ρ α}

/-- What a plan and the continuations that wait for it come to. -/
inductive Settles (body : ρ → σ → Plan σ ρ α) :
    Plan σ ρ α → List (α → σ → Plan σ ρ α) → α → σ → Prop where
  | last {p : Plan σ ρ α} {a : α} {t : σ} : Yields body p a t → Settles body p [] a t
  | next {p : Plan σ ρ α} {k : α → σ → Plan σ ρ α} {ks : List (α → σ → Plan σ ρ α)}
      {a b : α} {t u : σ} :
      Yields body p a t → Settles body (k a t) ks b u → Settles body p (k :: ks) b u

theorem Settles.map {p q : Plan σ ρ α} {ks : List (α → σ → Plan σ ρ α)} {b : α} {u : σ}
    (hpq : ∀ a t, Yields body p a t → Yields body q a t) (h : Settles body p ks b u) :
    Settles body q ks b u := by
  cases h with
  | last hp => exact .last (hpq _ _ hp)
  | next hp hk => exact .next (hpq _ _ hp) hk

theorem settles_of_advance {fuel : Nat} {p : Plan σ ρ α} {ks : List (α → σ → Plan σ ρ α)}
    {b : α} {u : σ} (h : advance body fuel ⟨p, ks⟩ = .finished b u) : Settles body p ks b u := by
  induction fuel generalizing p ks with
  | zero => cases h
  | succ fuel ih =>
    cases p with
    | answer a s =>
      cases ks with
      | nil =>
        cases h
        exact .last (.answer _ _)
      | cons k ks => exact .next (.answer _ _) (ih h)
    | jump q s => exact (ih h).map fun _ _ => .jump
    | call q s k =>
      have hk := ih h
      cases hk with
      | next hq hrest => exact hrest.map fun _ _ => .call hq

theorem advance_add {fuel : Nat} {c d : Config σ ρ α} (h : advance body fuel c = .unfinished d)
    (more : Nat) : advance body (fuel + more) c = advance body more d := by
  induction fuel generalizing c with
  | zero =>
    cases h
    rw [Nat.zero_add]
  | succ fuel ih =>
    rw [Nat.succ_add]
    simp only [advance] at h ⊢
    split at h
    · cases h
    · exact ih h

theorem Yields.advance_eq {p : Plan σ ρ α} {a : α} {t : σ} (h : Yields body p a t)
    (ks : List (α → σ → Plan σ ρ α)) :
    ∃ fuel, advance body fuel ⟨p, ks⟩ = .unfinished ⟨.answer a t, ks⟩ := by
  induction h generalizing ks with
  | answer a s => exact ⟨0, rfl⟩
  | jump h ih =>
    obtain ⟨n, hn⟩ := ih ks
    exact ⟨n + 1, hn⟩
  | @call q s t u k a b hq hk ihq ihk =>
    obtain ⟨n, hn⟩ := ihq (k :: ks)
    obtain ⟨m, hm⟩ := ihk ks
    have hcall : advance body (n + 1) ⟨.call q s k, ks⟩ = .unfinished ⟨.answer a t, k :: ks⟩ := hn
    exact ⟨n + 1 + (m + 1), (advance_add hcall (m + 1)).trans hm⟩

theorem run_eq_some_iff {q : ρ} {s u : σ} {b : α} :
    (∃ fuel, run body fuel q s = some (b, u)) ↔ Yields body (body q s) b u := by
  constructor
  · rintro ⟨fuel, h⟩
    unfold run at h
    split at h
    · rename_i a t hfin
      cases h
      cases settles_of_advance hfin with
      | last hy =>
        cases hy with
        | jump hq => exact hq
    · cases h
  · intro h
    obtain ⟨n, hn⟩ := (Yields.jump h).advance_eq []
    refine ⟨n + 1, ?_⟩
    unfold run start
    rw [advance_add hn]
    rfl

theorem Yields.unique {p : Plan σ ρ α} {a b : α} {t u : σ} (ha : Yields body p a t)
    (hb : Yields body p b u) : a = b ∧ t = u := by
  induction ha generalizing b u with
  | answer a s =>
    cases hb
    exact ⟨rfl, rfl⟩
  | jump h ih =>
    cases hb with
    | jump hb => exact ih hb
  | call hq hk ihq ihk =>
    cases hb with
    | call hq' hk' =>
      obtain ⟨rfl, rfl⟩ := ihq hq'
      exact ihk hk'

end TreeScript.Plan

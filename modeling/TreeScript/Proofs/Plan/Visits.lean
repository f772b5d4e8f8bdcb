import TreeScript.Proofs.Plan.Demands
import TreeScript.Proofs.Plan.Logic

/-!
The visits of a run: the requests that it makes, each with the state it is made in, in the order
in which they are made. A run that ends has such a list, no longer than its steps. It holds
the requests that its plans issue and no others.
-/
namespace TreeScript.Plan

variable {σ ρ α : Type} {body : ρ → σ → Plan σ ρ α} {log : List (ρ × σ)} {a : α} {t : σ}

/-- The plan comes to its answer, and these requests are made on the way. -/
inductive Visits (body : ρ → σ → Plan σ ρ α) : Plan σ ρ α → List (ρ × σ) → α → σ → Prop where
  | answer (a : α) (s : σ) : Visits body (.answer a s) [] a s
  | jump {q : ρ} {s t : σ} {a : α} {log : List (ρ × σ)} :
      Visits body (body q s) log a t → Visits body (.jump q s) ((q, s) :: log) a t
  | call {q : ρ} {s t u : σ} {k : α → σ → Plan σ ρ α} {a b : α} {before after : List (ρ × σ)} :
      Visits body (body q s) before a t → Visits body (k a t) after b u →
      Visits body (.call q s k) ((q, s) :: before ++ after) b u

theorem Visits.yields {p : Plan σ ρ α} (h : Visits body p log a t) : Yields body p a t := by
  induction h with
  | answer a s => exact .answer a s
  | jump _ ih => exact .jump ih
  | call _ _ ihq ihk => exact .call ihq ihk

theorem Yields.exists_visits {p : Plan σ ρ α} (h : Yields body p a t) :
    ∃ log, Visits body p log a t := by
  induction h with
  | answer a s => exact ⟨[], .answer a s⟩
  | jump _ ih =>
    obtain ⟨log, hq⟩ := ih
    exact ⟨_, .jump hq⟩
  | call _ _ ihq ihk =>
    obtain ⟨before, hq⟩ := ihq
    obtain ⟨after, hk⟩ := ihk
    exact ⟨_, .call hq hk⟩

section Steps

theorem advance_finished_add {fuel : Nat} {c : Config σ ρ α}
    (h : advance body fuel c = .finished a t) (more : Nat) :
    advance body (fuel + more) c = .finished a t := by
  induction fuel generalizing c with
  | zero => cases h
  | succ fuel ih =>
    rw [Nat.succ_add]
    simp only [advance] at h ⊢
    split at h
    · exact h
    · exact ih h

/-- Every visit takes a step. -/
theorem Visits.exists_advance {p : Plan σ ρ α} (h : Visits body p log a t)
    (ks : List (α → σ → Plan σ ρ α)) :
    ∃ n, log.length ≤ n ∧ advance body n ⟨p, ks⟩ = .unfinished ⟨.answer a t, ks⟩ := by
  induction h generalizing ks with
  | answer a s => exact ⟨0, Nat.le_refl 0, rfl⟩
  | jump _ ih =>
    obtain ⟨n, hle, hn⟩ := ih ks
    exact ⟨n + 1, Nat.succ_le_succ hle, hn⟩
  | @call q s t u k a b before after _ _ ihq ihk =>
    obtain ⟨n, hbefore, hn⟩ := ihq (k :: ks)
    obtain ⟨m, hafter, hm⟩ := ihk ks
    have hcall : advance body (n + 1) ⟨.call q s k, ks⟩ = .unfinished ⟨.answer a t, k :: ks⟩ := hn
    refine ⟨n + 1 + (m + 1), ?_, (advance_add hcall (m + 1)).trans hm⟩
    simp only [List.cons_append, List.length_cons, List.length_append]
    omega

theorem Visits.length_le_of_run {q : ρ} {s u : σ} {b : α} {fuel : Nat}
    (h : Visits body (.jump q s) log a t) (hrun : run body fuel q s = some (b, u)) :
    log.length ≤ fuel := by
  obtain ⟨n, hle, hn⟩ := h.exists_advance []
  unfold run at hrun
  split at hrun
  · rename_i hfinished
    refine Nat.le_of_not_lt fun hlt => ?_
    -- Finished after `fuel` steps, the run is not under way after more of them.
    obtain ⟨more, rfl⟩ := Nat.exists_eq_add_of_le (Nat.le_of_lt (Nat.lt_of_lt_of_le hlt hle))
    cases (advance_finished_add hfinished more).symm.trans hn
  · cases hrun

end Steps

section Membership

/-- A run visits only what its plans demand. -/
theorem Visits.forall_mem {R : ρ → σ → Prop} (hbody : ∀ q s, R q s → (body q s).Demands body R)
    {p : Plan σ ρ α} (h : Visits body p log a t) (hp : p.Demands body R) :
    ∀ x ∈ log, R x.1 x.2 := by
  induction h with
  | answer a s => simp
  | @jump q s t a log _ ih => exact List.forall_mem_cons.mpr ⟨hp, ih (hbody q s hp)⟩
  | @call q s t u k a b before after hq _ ihq ihk =>
    obtain ⟨hq', hk⟩ := hp
    have hbefore := ihq (hbody q s hq')
    have hafter := ihk (hk a t hq.yields)
    simp only [List.cons_append, List.forall_mem_cons, List.forall_mem_append]
    exact ⟨hq', hbefore, hafter⟩

/-- The plan makes the request in the state, given the answers to those before. -/
inductive Issues (body : ρ → σ → Plan σ ρ α) : Plan σ ρ α → ρ → σ → Prop where
  | jump {q : ρ} {s : σ} : Issues body (.jump q s) q s
  | call {q : ρ} {s : σ} {k : α → σ → Plan σ ρ α} : Issues body (.call q s k) q s
  | later {q r : ρ} {s t u : σ} {k : α → σ → Plan σ ρ α} {a : α} :
      Yields body (body q s) a t → Issues body (k a t) r u → Issues body (.call q s k) r u

/-- A run visits what its plan issues, and all that is visited for it. -/
theorem Visits.of_issues {p : Plan σ ρ α} {r : ρ} {w : σ} (h : Visits body p log a t)
    (hp : Issues body p r w) :
    ∃ inner b u, Visits body (body r w) inner b u ∧ ∀ x ∈ (r, w) :: inner, x ∈ log := by
  induction hp generalizing log with
  | jump =>
    cases h with
    | jump hq => exact ⟨_, _, _, hq, fun x hx => hx⟩
  | call =>
    cases h with
    | call hq _ => exact ⟨_, _, _, hq, fun x hx => List.mem_append_left _ hx⟩
  | later hyields _ ih =>
    cases h with
    | call hq hk =>
      obtain ⟨rfl, rfl⟩ := hyields.unique hq.yields
      obtain ⟨inner, b, u, hinner, hmem⟩ := ih hk
      exact ⟨inner, b, u, hinner, fun x hx => List.mem_append_right _ (hmem x hx)⟩

variable {ε : Type} {body : ρ → σ → Plan σ ρ (Except ε α)}

theorem issues_askAll {qs before after : List ρ} {r : ρ} {s u : σ} {answers as : List α}
    {k : List α → σ → Plan σ ρ (Except ε α)} (hqs : qs = before ++ r :: after)
    (h : YieldsAll body before s (.ok as) u) : Issues body (.askAll qs s answers k) r u := by
  subst hqs
  induction before generalizing s answers as with
  | nil =>
    cases h
    exact .call
  | cons q before ih =>
    cases h with
    | cons hq hqs => exact .later hq (ih hqs)

theorem issues_after_askAll {qs : List ρ} {r : ρ} {s u w : σ} {answers as : List α}
    {k : List α → σ → Plan σ ρ (Except ε α)} (h : YieldsAll body qs s (.ok as) u)
    (hk : Issues body (k (answers.reverse ++ as) u) r w) :
    Issues body (.askAll qs s answers k) r w := by
  induction qs generalizing s answers as with
  | nil =>
    cases h
    rwa [List.append_nil] at hk
  | cons q qs ih =>
    cases h with
    | cons hq hqs => exact .later hq (ih hqs (by simpa using hk))

end Membership

/-- However the plan ends, `post` holds of its visits, if the requests that it makes keep to the
contract with theirs. -/
def Accounts (body : ρ → σ → Plan σ ρ α) (contract : ρ → σ → List (ρ × σ) → α → σ → Prop)
    (post : List (ρ × σ) → α → σ → Prop) : Plan σ ρ α → Prop
  | .answer a s => post [] a s
  | .jump q s => ∀ log a t, Yields body (body q s) a t → contract q s log a t →
      post ((q, s) :: log) a t
  | .call q s k => ∀ log a t, Yields body (body q s) a t → contract q s log a t →
      (k a t).Accounts body contract fun rest => post ((q, s) :: log ++ rest)

section Contracts
variable {contract : ρ → σ → List (ρ × σ) → α → σ → Prop} {post more : List (ρ × σ) → α → σ → Prop}

theorem Accounts.imp {p : Plan σ ρ α} (h : p.Accounts body contract post)
    (hmore : ∀ log a t, post log a t → more log a t) : p.Accounts body contract more := by
  induction p generalizing post more with
  | answer a s => exact hmore _ _ _ h
  | jump q s =>
    intro log a t hy ha
    exact hmore _ _ _ (h log a t hy ha)
  | call q s k ih =>
    intro log a t hy ha
    exact ih a t (h log a t hy ha) fun rest => hmore _

/-- A body that keeps to a contract as far as its requests do keeps to it in every run. -/
theorem Visits.accounted (hbody : ∀ q s, (body q s).Accounts body contract (contract q s))
    {p : Plan σ ρ α} (h : Visits body p log a t) (hp : p.Accounts body contract post) :
    post log a t := by
  induction h generalizing post with
  | answer a s => exact hp
  | @jump q s t a log hq ih => exact hp log a t hq.yields (ih (hbody q s))
  | @call q s t u k a b before after hq _ ihq ihk =>
    exact ihk (hp before a t hq.yields (ihq (hbody q s)))

end Contracts

end TreeScript.Plan

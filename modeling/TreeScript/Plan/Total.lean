import TreeScript.Plan.Basic

/-!
Running a body whose recursion ends, without fuel. Execution follows the machine's
transitions; the proof that they end is erased. A body ends at every request when
each request it makes is smaller than the one it serves.
-/
namespace TreeScript.Plan

variable {σ ρ α : Type} {body : ρ → σ → Plan σ ρ α}

def Next (body : ρ → σ → Plan σ ρ α) (d c : Config σ ρ α) : Prop :=
  step body c = .unfinished d

theorem Yields.accessible {p : Plan σ ρ α} {a : α} {t : σ} (h : Yields body p a t)
    {ks : List (α → σ → Plan σ ρ α)} (hks : Acc (Next body) ⟨.answer a t, ks⟩) :
    Acc (Next body) ⟨p, ks⟩ := by
  induction h generalizing ks with
  | answer a s => exact hks
  | jump h ih =>
    refine Acc.intro _ fun d hd => ?_
    simp only [Next, step, Progress.unfinished.injEq] at hd
    exact hd ▸ ih hks
  | call hq hk ihq ihk =>
    refine Acc.intro _ fun d hd => ?_
    simp only [Next, step, Progress.unfinished.injEq] at hd
    refine hd ▸ ihq (Acc.intro _ fun e he => ?_)
    simp only [Next, step, Progress.unfinished.injEq] at he
    exact he ▸ ihk hks

theorem answer_accessible (a : α) (s : σ) : Acc (Next body) ⟨.answer a s, []⟩ := by
  refine Acc.intro _ fun d hd => ?_
  simp [Next, step] at hd

/-- Steps to the end. -/
def execute (body : ρ → σ → Plan σ ρ α) (c : Config σ ρ α) (h : Acc (Next body) c) : α × σ :=
  match hc : step body c with
  | .finished a s => (a, s)
  | .unfinished d => execute body d (h.inv hc)
termination_by (⟨c, h⟩ : { c : Config σ ρ α // Acc (Next body) c })
decreasing_by exact hc

theorem execute_of_step {c d : Config σ ρ α} (h : Acc (Next body) c)
    (hc : step body c = .unfinished d) :
    execute body c h = execute body d (h.inv hc) := by
  rw [execute]
  split
  · rename_i hf
    rw [hf] at hc
    cases hc
  · rename_i e he
    cases he.symm.trans hc
    rfl

theorem Yields.execute_eq {p : Plan σ ρ α} {a : α} {t : σ} (h : Yields body p a t)
    {ks : List (α → σ → Plan σ ρ α)} (hks : Acc (Next body) ⟨.answer a t, ks⟩) :
    execute body ⟨p, ks⟩ (h.accessible hks) = execute body ⟨.answer a t, ks⟩ hks := by
  induction h generalizing ks with
  | answer a s => rfl
  | jump h ih => exact (execute_of_step _ rfl).trans (ih hks)
  | @call q s t u k a b hq hk ihq ihk =>
    have hwait : Acc (Next body) ⟨.answer a t, k :: ks⟩ := by
      refine Acc.intro _ fun e he => ?_
      simp only [Next, step, Progress.unfinished.injEq] at he
      exact he ▸ hk.accessible hks
    refine (execute_of_step _ rfl).trans ((ihq hwait).trans ?_)
    exact (execute_of_step hwait rfl).trans (ihk hks)

/-- Every request has an answer. -/
def Total (body : ρ → σ → Plan σ ρ α) : Prop :=
  ∀ q s, ∃ a t, Yields body (body q s) a t

/-- The answer of a body that always has one. -/
def solve (body : ρ → σ → Plan σ ρ α) (total : Total body) (q : ρ) (s : σ) : α × σ :=
  execute body ⟨body q s, []⟩ (by
    obtain ⟨a, t, h⟩ := total q s
    exact h.accessible (answer_accessible a t))

theorem Yields.solve_eq {total : Total body} {q : ρ} {s t : σ} {a : α}
    (h : Yields body (body q s) a t) : solve body total q s = (a, t) := by
  refine (h.execute_eq (answer_accessible a t)).trans ?_
  rw [execute]
  rfl

theorem solve_yields (total : Total body) (q : ρ) (s : σ) :
    Yields body (body q s) (solve body total q s).1 (solve body total q s).2 := by
  obtain ⟨a, t, h⟩ := total q s
  rw [h.solve_eq]
  exact h

theorem yields_of_callsOnly {ok : ρ → Prop}
    (hok : ∀ q, ok q → ∀ s, ∃ a t, Yields body (body q s) a t) :
    ∀ p : Plan σ ρ α, p.CallsOnly ok → ∃ a t, Yields body p a t
  | .answer a s, _ => ⟨a, s, .answer a s⟩
  | .jump q s, h =>
    let ⟨a, t, hy⟩ := hok q h s
    ⟨a, t, .jump hy⟩
  | .call q s k, h => by
    obtain ⟨a, t, hy⟩ := hok q h.1 s
    obtain ⟨b, u, hz⟩ := yields_of_callsOnly hok (k a t) (h.2 a t)
    exact ⟨b, u, .call hy hz⟩

/-- A body that only makes smaller requests always has an answer. -/
theorem total_of_measure (size : ρ → Nat)
    (h : ∀ q s, (body q s).CallsOnly fun p => size p < size q) : Total body := by
  intro q
  induction hn : size q using Nat.strongRecOn generalizing q with
  | ind n ih =>
    intro s
    exact yields_of_callsOnly (fun p hp t => ih (size p) (hn ▸ hp) p rfl t) _ (h q s)

section Attempts
variable {ε β : Type} {ok : ρ → Prop}

theorem callsOnly_require {e : Except ε β} {s : σ} {k : β → Plan σ ρ (Except ε α)}
    (h : ∀ b, e = .ok b → (k b).CallsOnly ok) : (require e s k).CallsOnly ok := by
  cases e with
  | error x => exact True.intro
  | ok b => exact h b rfl

theorem callsOnly_ask {q : ρ} {s : σ} {k : α → σ → Plan σ ρ (Except ε α)} (hq : ok q)
    (h : ∀ a t, (k a t).CallsOnly ok) : (ask q s k).CallsOnly ok := by
  refine ⟨hq, fun r t => ?_⟩
  cases r with
  | error x => exact True.intro
  | ok a => exact h a t

theorem callsOnly_askAll {qs : List ρ} {s : σ} {answers : List α}
    {k : List α → σ → Plan σ ρ (Except ε α)} (hqs : ∀ q ∈ qs, ok q)
    (h : ∀ as t, (k as t).CallsOnly ok) : (askAll qs s answers k).CallsOnly ok := by
  induction qs generalizing s answers with
  | nil => exact h _ _
  | cons q qs ih =>
    exact callsOnly_ask (hqs q (by simp)) fun a t => ih fun p hp => hqs p (by simp [hp])

end Attempts

end TreeScript.Plan

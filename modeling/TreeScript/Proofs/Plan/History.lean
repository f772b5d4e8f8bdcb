import TreeScript.Plan.Fuel

/-!
Histories of runs: the requests that a run answers, each with its answer, in the order in which
the answers come. A run that ends has one history. What each request adds to a view of the
state, once its answer is there, the run adds up along its history.
-/
namespace TreeScript.Plan

variable {σ ρ α : Type} {body : ρ → σ → Plan σ ρ α}

/-- The plan comes to its answer, and these requests were answered on the way. -/
inductive Recounts (body : ρ → σ → Plan σ ρ α) : Plan σ ρ α → List (ρ × α) → α → σ → Prop where
  | answer (a : α) (s : σ) : Recounts body (.answer a s) [] a s
  | jump {q : ρ} {s t : σ} {a : α} {history : List (ρ × α)} :
      Recounts body (body q s) history a t → Recounts body (.jump q s) (history ++ [(q, a)]) a t
  | call {q : ρ} {s t u : σ} {k : α → σ → Plan σ ρ α} {a b : α} {before after : List (ρ × α)} :
      Recounts body (body q s) before a t → Recounts body (k a t) after b u →
      Recounts body (.call q s k) (before ++ (q, a) :: after) b u

theorem Recounts.yields {p : Plan σ ρ α} {history : List (ρ × α)} {a : α} {t : σ}
    (h : Recounts body p history a t) : Yields body p a t := by
  induction h with
  | answer a s => exact .answer a s
  | jump _ ih => exact .jump ih
  | call _ _ ihq ihk => exact .call ihq ihk

theorem Yields.exists_recounts {p : Plan σ ρ α} {a : α} {t : σ} (h : Yields body p a t) :
    ∃ history, Recounts body p history a t := by
  induction h with
  | answer a s => exact ⟨[], .answer a s⟩
  | jump _ ih =>
    obtain ⟨history, hq⟩ := ih
    exact ⟨_, .jump hq⟩
  | call _ _ ihq ihk =>
    obtain ⟨before, hq⟩ := ihq
    obtain ⟨after, hk⟩ := ihk
    exact ⟨_, .call hq hk⟩

theorem Recounts.history_unique {p : Plan σ ρ α} {before after : List (ρ × α)} {a b : α} {t u : σ}
    (h : Recounts body p before a t) (h' : Recounts body p after b u) : before = after := by
  induction h generalizing after b u with
  | answer a s =>
    cases h'
    rfl
  | jump hq ih =>
    cases h' with
    | jump hq' =>
      obtain ⟨rfl, -⟩ := hq.yields.unique hq'.yields
      rw [ih hq']
  | call hq hk ihq ihk =>
    cases h' with
    | call hq' hk' =>
      obtain ⟨rfl, rfl⟩ := hq.yields.unique hq'.yields
      rw [ihq hq', ihk hk']

section Tally
variable {μ : Type} {view : σ → μ} {tally : ρ → α → μ → μ} {finish : α → μ → μ}

/-- The plan changes the view only as it answers. A plan that hands over adds nothing itself. -/
def Tallies (view : σ → μ) (finish : α → μ → μ) (m : μ) : Plan σ ρ α → Prop
  | .answer a s => view s = finish a m
  | .jump _ s => view s = m ∧ ∀ a n, finish a n = n
  | .call _ s k => view s = m ∧ ∀ a t, (k a t).Tallies view finish (view t)

theorem tallies_ask {ε : Type} {finish : Except ε α → μ → μ} {m : μ} {q : ρ} {s : σ}
    {k : α → σ → Plan σ ρ (Except ε α)} (hs : view s = m)
    (herror : ∀ e n, finish (.error e) n = n)
    (hk : ∀ a t, (k a t).Tallies view finish (view t)) :
    (ask q s k).Tallies view finish m := by
  refine ⟨hs, ?_⟩
  intro r t
  cases r with
  | ok a => exact hk a t
  | error e => exact (herror e (view t)).symm

theorem tallies_askAll {ε : Type} {finish : Except ε α → μ → μ} {m : μ} {qs : List ρ} {s : σ}
    {answers : List α} {k : List α → σ → Plan σ ρ (Except ε α)} (hs : view s = m)
    (herror : ∀ e n, finish (.error e) n = n)
    (hk : ∀ as t, (k as t).Tallies view finish (view t)) :
    (askAll qs s answers k).Tallies view finish m := by
  induction qs generalizing s m answers with
  | nil => exact hs ▸ hk answers.reverse s
  | cons q qs ih => exact tallies_ask hs herror fun a t => ih rfl

/-- A run adds up what its requests add. -/
theorem Recounts.view_eq (hbody : ∀ q s, (body q s).Tallies view (tally q) (view s))
    {p : Plan σ ρ α} {history : List (ρ × α)} {a : α} {t : σ} {m : μ}
    (h : Recounts body p history a t) (hp : p.Tallies view finish m) :
    view t = finish a (history.foldl (fun n x => tally x.1 x.2 n) m) := by
  induction h generalizing finish m with
  | answer a s => exact hp
  | @jump q s t a history hq ih =>
    obtain ⟨rfl, hfinish⟩ := hp
    rw [hfinish, List.foldl_append]
    exact ih (hbody q s)
  | @call q s t u k a b before after hq hk ihq ihk =>
    obtain ⟨rfl, hrest⟩ := hp
    have hview := ihq (hbody q s)
    rw [ihk (hrest a t), hview, List.foldl_append, List.foldl_cons]

end Tally

end TreeScript.Plan

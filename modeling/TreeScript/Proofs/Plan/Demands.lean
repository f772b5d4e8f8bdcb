import TreeScript.Plan.Fuel

/-!
The requests that a run makes. A plan demands what it asks for, each request in the state
it is made in, given the answers to those before. If every request that a plan demands has
an answer, so has the plan. At every moment of a run, the plan in hand is what is left of
the plan of a demanded request.
-/
namespace TreeScript.Plan

variable {σ ρ α : Type} {body : ρ → σ → Plan σ ρ α} {R : ρ → σ → Prop}

/-- The request that the plan makes first. -/
def request? : Plan σ ρ α → Option ρ
  | .answer _ _ => none
  | .jump q _ | .call q _ _ => some q

/-- Every request that the plan makes is one of `R`, in the state it is made in. -/
def Demands (body : ρ → σ → Plan σ ρ α) (R : ρ → σ → Prop) : Plan σ ρ α → Prop
  | .answer _ _ => True
  | .jump q s => R q s
  | .call q s k => R q s ∧ ∀ a t, Yields body (body q s) a t → (k a t).Demands body R

theorem Demands.imp {R' : ρ → σ → Prop} (hRR' : ∀ q s, R q s → R' q s) {p : Plan σ ρ α}
    (h : p.Demands body R) : p.Demands body R' := by
  induction p with
  | answer a s => trivial
  | jump q s => exact hRR' q s h
  | call q s k ih => exact ⟨hRR' q s h.1, fun a t ha => ih a t (h.2 a t ha)⟩

/-- A plan comes to an answer if all that it demands does. -/
theorem Demands.exists_yields {p : Plan σ ρ α} (h : p.Demands body R)
    (hR : ∀ q s, R q s → ∃ a t, Yields body (body q s) a t) : ∃ a t, Yields body p a t := by
  induction p with
  | answer a s => exact ⟨a, s, .answer a s⟩
  | jump q s =>
    obtain ⟨a, t, hq⟩ := hR q s h
    exact ⟨a, t, .jump hq⟩
  | call q s k ih =>
    obtain ⟨hq, hk⟩ := h
    obtain ⟨a, t, ha⟩ := hR q s hq
    obtain ⟨b, u, hb⟩ := ih a t (hk a t ha)
    exact ⟨b, u, .call ha hb⟩

section Attempts
variable {ε : Type} {body : ρ → σ → Plan σ ρ (Except ε α)}

theorem demands_ask {q : ρ} {s : σ} {k : α → σ → Plan σ ρ (Except ε α)} (hq : R q s)
    (hk : ∀ a t, Yields body (body q s) (.ok a) t → (k a t).Demands body R) :
    (ask q s k).Demands body R := by
  refine ⟨hq, ?_⟩
  intro r t hr
  cases r with
  | ok a => exact hk a t hr
  | error e => trivial

/-- What holds of the requests left, the answers so far and the state carries over from
one request to the next. -/
theorem demands_askAll {τ : Type} {g : τ → ρ} {I : List τ → List α → σ → Prop} {ts : List τ}
    {s : σ} {answers : List α} {k : List α → σ → Plan σ ρ (Except ε α)} (hstart : I ts answers s)
    (hask : ∀ t ts answers s, I (t :: ts) answers s → R (g t) s)
    (hok : ∀ t ts answers s a u, I (t :: ts) answers s → Yields body (body (g t) s) (.ok a) u →
      I ts (a :: answers) u)
    (hend : ∀ answers u, I [] answers u → (k answers.reverse u).Demands body R) :
    (askAll (ts.map g) s answers k).Demands body R := by
  induction ts generalizing s answers with
  | nil => exact hend answers s hstart
  | cons t ts ih =>
    refine demands_ask (hask t ts answers s hstart) ?_
    intro a u ha
    exact ih (hok t ts answers s a u hstart ha)

end Attempts

/-- The plan is a part of what serves a request of `R`: its answer is the answer to it. -/
def Serves (body : ρ → σ → Plan σ ρ α) (R : ρ → σ → Prop) (p : Plan σ ρ α) : Prop :=
  p.Demands body R ∧ ∃ q s, R q s ∧ ∀ a t, Yields body p a t → Yields body (body q s) a t

/-- The plan serves a request, and so does what waits for its answer. -/
def ServesAll (body : ρ → σ → Plan σ ρ α) (R : ρ → σ → Prop) (p : Plan σ ρ α) :
    List (α → σ → Plan σ ρ α) → Prop
  | [] => p.Serves body R
  | k :: ks => p.Serves body R ∧ ∀ a t, Yields body p a t → (k a t).ServesAll body R ks

theorem ServesAll.serves {p : Plan σ ρ α} {ks : List (α → σ → Plan σ ρ α)}
    (h : p.ServesAll body R ks) : p.Serves body R := by
  cases ks with
  | nil => exact h
  | cons k ks => exact h.1

theorem ServesAll.next {p p' : Plan σ ρ α} {ks : List (α → σ → Plan σ ρ α)}
    (h : p.ServesAll body R ks) (hp' : p'.Serves body R)
    (hpp' : ∀ a t, Yields body p' a t → Yields body p a t) : p'.ServesAll body R ks := by
  cases ks with
  | nil => exact hp'
  | cons k ks => exact ⟨hp', fun a t ha => h.2 a t (hpp' a t ha)⟩

section Moments
variable (hbody : ∀ q s, R q s → (body q s).Demands body R)
include hbody

theorem serves_body {q : ρ} {s : σ} (hq : R q s) : (body q s).Serves body R :=
  ⟨hbody q s hq, q, s, hq, fun _ _ h => h⟩

theorem servesAll_advance {fuel : Nat} {p : Plan σ ρ α} {ks : List (α → σ → Plan σ ρ α)}
    {c : Config σ ρ α} (h : advance body fuel ⟨p, ks⟩ = .unfinished c)
    (hp : p.ServesAll body R ks) : c.plan.ServesAll body R c.waiting := by
  induction fuel generalizing p ks with
  | zero =>
    cases h
    exact hp
  | succ fuel ih =>
    cases p with
    | answer a t =>
      cases ks with
      | nil => cases h
      | cons k ks => exact ih h (hp.2 a t (.answer a t))
    | jump q t =>
      obtain ⟨hq, -⟩ := hp.serves
      exact ih h (hp.next (serves_body hbody hq) fun a u => .jump)
    | call q t k =>
      obtain ⟨⟨hq, hk⟩, q', s', hq', hsame⟩ := hp.serves
      refine ih h ⟨serves_body hbody hq, ?_⟩
      intro a u ha
      refine hp.next ⟨hk a u ha, q', s', hq', ?_⟩ fun b w => .call ha
      intro b w hb
      exact hsame b w (.call ha hb)

/-- At every moment of a run the plan in hand is a part of what serves one of the requests
that the run makes. -/
theorem serves_of_advance {fuel : Nat} {q : ρ} {s : σ} {c : Config σ ρ α} (hq : R q s)
    (h : advance body fuel (start q s) = .unfinished c) : c.plan.Serves body R := by
  refine (servesAll_advance hbody h ⟨hq, q, s, hq, ?_⟩).serves
  intro a t hy
  cases hy with
  | jump hy => exact hy

end Moments

end TreeScript.Plan

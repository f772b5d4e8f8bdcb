import TreeScript.Plan.Fuel

/-!
Reasoning about plans. A contract says what an answer to a request and the state after it
have to do with the state before. A body that keeps to a contract whenever the requests
it makes do keeps to it in every run. An order on states that every plan of a body
follows from one state to the next holds between the start of a run and every state in it.
-/
namespace TreeScript.Plan

variable {σ ρ α : Type} {body : ρ → σ → Plan σ ρ α}

/-- However the plan ends, `post` holds, if the requests it makes keep to the contract. -/
def Ensures (contract : ρ → σ → α → σ → Prop) (post : α → σ → Prop) : Plan σ ρ α → Prop
  | .answer a s => post a s
  | .jump q s => ∀ a t, contract q s a t → post a t
  | .call q s k => ∀ a t, contract q s a t → (k a t).Ensures contract post

theorem Ensures.imp {contract : ρ → σ → α → σ → Prop} {post more : α → σ → Prop}
    (hmore : ∀ a t, post a t → more a t) {p : Plan σ ρ α} (h : p.Ensures contract post) :
    p.Ensures contract more := by
  induction p with
  | answer a s => exact hmore a s h
  | jump q s =>
    intro a t ha
    exact hmore a t (h a t ha)
  | call q s k ih =>
    intro a t ha
    exact ih a t (h a t ha)

/-- A condition under which a plan ends as wanted may be supposed from its start. -/
theorem ensures_of_imp {contract : ρ → σ → α → σ → Prop} {P : Prop} {post : α → σ → Prop}
    {p : Plan σ ρ α} (h : P → p.Ensures contract post) :
    p.Ensures contract fun a t => P → post a t := by
  induction p with
  | answer a s => exact h
  | jump q s =>
    intro a t ha hP
    exact h hP a t ha
  | call q s k ih =>
    intro a t ha
    exact ih a t fun hP => h hP a t ha

/-- A contract together with the fact that the request really has that answer. -/
def Met (body : ρ → σ → Plan σ ρ α) (contract : ρ → σ → α → σ → Prop) (q : ρ) (s : σ) (a : α)
    (t : σ) : Prop :=
  contract q s a t ∧ Yields body (body q s) a t

theorem Yields.ensured {contract : ρ → σ → α → σ → Prop}
    (hbody : ∀ q s, (body q s).Ensures (Met body contract) (contract q s))
    {p : Plan σ ρ α} {post : α → σ → Prop} {a : α} {t : σ} (hy : Yields body p a t)
    (hp : p.Ensures (Met body contract) post) : post a t := by
  induction hy generalizing post with
  | answer a s => exact hp
  | @jump q s t a hq ih => exact hp a t ⟨ih (hbody q s), hq⟩
  | @call q s t u k a b hq hk ihq ihk => exact ihk (hp a t ⟨ihq (hbody q s), hq⟩)

/-- A body that keeps to a contract as far as its requests do keeps to it in every run. -/
theorem Yields.keeps {contract : ρ → σ → α → σ → Prop}
    (hbody : ∀ q s, (body q s).Ensures (Met body contract) (contract q s))
    {q : ρ} {s t : σ} {a : α} (hy : Yields body (body q s) a t) : contract q s a t :=
  hy.ensured hbody (hbody q s)

theorem Yields.of_answer {a b : α} {s t : σ} (h : Yields body (.answer a s) b t) :
    b = a ∧ t = s := by
  cases h
  exact ⟨rfl, rfl⟩

section Requests
variable {contract : ρ → σ → α → σ → Prop} {post : α → σ → Prop}

theorem ensures_jump {q : ρ} {s : σ}
    (h : ∀ a t, contract q s a t → Yields body (body q s) a t → post a t) :
    (jump q s).Ensures (Met body contract) post := by
  intro a t ha
  exact h a t ha.1 ha.2

theorem ensures_call {q : ρ} {s : σ} {k : α → σ → Plan σ ρ α}
    (h : ∀ a t, contract q s a t → Yields body (body q s) a t →
      (k a t).Ensures (Met body contract) post) :
    (call q s k).Ensures (Met body contract) post := by
  intro a t ha
  exact h a t ha.1 ha.2

end Requests

section Attempts
variable {ε : Type} {body : ρ → σ → Plan σ ρ (Except ε α)}
  {contract : ρ → σ → Except ε α → σ → Prop} {post : Except ε α → σ → Prop}

theorem ensures_ask {q : ρ} {s : σ} {k : α → σ → Plan σ ρ (Except ε α)}
    (hok : ∀ a t, contract q s (.ok a) t → Yields body (body q s) (.ok a) t →
      (k a t).Ensures (Met body contract) post)
    (herror : ∀ e t, contract q s (.error e) t → Yields body (body q s) (.error e) t →
      post (.error e) t) :
    (ask q s k).Ensures (Met body contract) post := by
  apply ensures_call
  intro r t hr hy
  cases r with
  | ok a => exact hok a t hr hy
  | error e => exact herror e t hr hy

/-- What holds of the requests left, the answers so far and the state carries over from
one request to the next. -/
theorem ensures_askAll {τ : Type} {g : τ → ρ} {I : List τ → List α → σ → Prop} {ts : List τ}
    {s : σ} {answers : List α} {k : List α → σ → Plan σ ρ (Except ε α)} (hstart : I ts answers s)
    (hok : ∀ t ts answers s a u, I (t :: ts) answers s → contract (g t) s (.ok a) u →
      Yields body (body (g t) s) (.ok a) u → I ts (a :: answers) u)
    (herror : ∀ t ts answers s e u, I (t :: ts) answers s → contract (g t) s (.error e) u →
      Yields body (body (g t) s) (.error e) u → post (.error e) u)
    (hend : ∀ answers u, I [] answers u → (k answers.reverse u).Ensures (Met body contract) post) :
    (askAll (ts.map g) s answers k).Ensures (Met body contract) post := by
  induction ts generalizing s answers with
  | nil => exact hend answers s hstart
  | cons t ts ih =>
    apply ensures_ask
    · intro a u ha hy
      exact ih (hok t ts answers s a u hstart ha hy)
    · intro e u he hy
      exact herror t ts answers s e u hstart he hy

theorem Yields.ask_ok {q : ρ} {s t u : σ} {a : α} {r : Except ε α}
    {k : α → σ → Plan σ ρ (Except ε α)} (hq : Yields body (body q s) (.ok a) t)
    (hk : Yields body (k a t) r u) : Yields body (ask q s k) r u :=
  .call hq hk

theorem Yields.ask_error {q : ρ} {s t : σ} {e : ε} {k : α → σ → Plan σ ρ (Except ε α)}
    (hq : Yields body (body q s) (.error e) t) : Yields body (ask q s k) (.error e) t :=
  .call hq (.answer _ _)

/-- The requests, asked from left to right, come to all their answers or to the failure of
the first that has none. -/
inductive YieldsAll (body : ρ → σ → Plan σ ρ (Except ε α)) :
    List ρ → σ → Except ε (List α) → σ → Prop where
  | nil {s : σ} : YieldsAll body [] s (.ok []) s
  | cons {q : ρ} {qs : List ρ} {s t u : σ} {a : α} {as : List α} :
      Yields body (body q s) (.ok a) t → YieldsAll body qs t (.ok as) u →
      YieldsAll body (q :: qs) s (.ok (a :: as)) u
  | head {q : ρ} {qs : List ρ} {s t : σ} {e : ε} :
      Yields body (body q s) (.error e) t → YieldsAll body (q :: qs) s (.error e) t
  | tail {q : ρ} {qs : List ρ} {s t u : σ} {a : α} {e : ε} :
      Yields body (body q s) (.ok a) t → YieldsAll body qs t (.error e) u →
      YieldsAll body (q :: qs) s (.error e) u

theorem YieldsAll.unique {qs : List ρ} {s u w : σ} {rs rs' : Except ε (List α)}
    (h : YieldsAll body qs s rs u) (h' : YieldsAll body qs s rs' w) : rs = rs' ∧ u = w := by
  induction h generalizing rs' w with
  | nil =>
    cases h'
    exact ⟨rfl, rfl⟩
  | cons hq _ ih =>
    cases h' with
    | cons hq' hqs' =>
      obtain ⟨⟨⟩, rfl⟩ := hq.unique hq'
      obtain ⟨⟨⟩, rfl⟩ := ih hqs'
      exact ⟨rfl, rfl⟩
    | head he' => cases (hq.unique he').1
    | tail hq' he' =>
      obtain ⟨-, rfl⟩ := hq.unique hq'
      cases (ih he').1
  | head he =>
    cases h' with
    | cons hq' _ | tail hq' _ => cases (he.unique hq').1
    | head he' =>
      obtain ⟨⟨⟩, rfl⟩ := he.unique he'
      exact ⟨rfl, rfl⟩
  | tail hq _ ih =>
    cases h' with
    | cons hq' hqs' =>
      obtain ⟨-, rfl⟩ := hq.unique hq'
      cases (ih hqs').1
    | head he' => cases (hq.unique he').1
    | tail hq' he' =>
      obtain ⟨-, rfl⟩ := hq.unique hq'
      obtain ⟨⟨⟩, rfl⟩ := ih he'
      exact ⟨rfl, rfl⟩

theorem YieldsAll.askAll {qs : List ρ} {s u : σ} {rs : Except ε (List α)}
    (h : YieldsAll body qs s rs u) {answers : List α} {k : List α → σ → Plan σ ρ (Except ε α)}
    {r : Except ε α} {w : σ}
    (hok : ∀ as, rs = .ok as → Yields body (k (answers.reverse ++ as) u) r w)
    (herror : ∀ e, rs = .error e → r = .error e ∧ w = u) :
    Yields body (.askAll qs s answers k) r w := by
  induction h generalizing answers with
  | nil =>
    have h := hok [] rfl
    rw [List.append_nil] at h
    exact h
  | @cons q qs s t u a as hq hqs ih =>
    refine .ask_ok hq (ih ?_ (by simp))
    rintro bs ⟨⟩
    simpa using hok (a :: as) rfl
  | head hq =>
    obtain ⟨rfl, rfl⟩ := herror _ rfl
    exact .ask_error hq
  | tail hq hqs ih => exact .ask_ok hq (ih (by simp) herror)

theorem YieldsAll.askAll_ok {qs : List ρ} {s u w : σ} {as : List α} {r : Except ε α}
    {k : List α → σ → Plan σ ρ (Except ε α)} (h : YieldsAll body qs s (.ok as) u)
    (hk : Yields body (k as u) r w) : Yields body (.askAll qs s [] k) r w := by
  refine h.askAll ?_ (by simp)
  rintro bs ⟨⟩
  exact hk

theorem YieldsAll.askAll_error {qs : List ρ} {s u : σ} {e : ε}
    {k : List α → σ → Plan σ ρ (Except ε α)} (h : YieldsAll body qs s (.error e) u) :
    Yields body (.askAll qs s [] k) (.error e) u := by
  refine h.askAll (by simp) ?_
  rintro e ⟨⟩
  exact ⟨rfl, rfl⟩

end Attempts

/-- Each state that the plan hands on stands above the one before it, from `s` on. -/
def Ascends (le : σ → σ → Prop) (s : σ) : Plan σ ρ α → Prop
  | .answer _ t => le s t
  | .jump _ t => le s t
  | .call _ t k => le s t ∧ ∀ a u, le t u → (k a u).Ascends le u

section Orders
variable {le : σ → σ → Prop}

theorem Ascends.state {p : Plan σ ρ α} {s : σ} (h : p.Ascends le s) : le s p.state := by
  cases p with
  | answer a t => exact h
  | jump q t => exact h
  | call q t k => exact h.1

theorem ascends_ask {ε : Type} {q : ρ} {s t : σ} {k : α → σ → Plan σ ρ (Except ε α)}
    (hrefl : ∀ s, le s s) (hs : le s t) (hk : ∀ a u, le t u → (k a u).Ascends le u) :
    (ask q t k).Ascends le s := by
  constructor
  · exact hs
  intro r u hu
  cases r with
  | ok a => exact hk a u hu
  | error e => exact hrefl u

theorem ascends_askAll {ε : Type} {qs : List ρ} {s : σ} {answers : List α}
    {k : List α → σ → Plan σ ρ (Except ε α)} (hrefl : ∀ s, le s s)
    (hk : ∀ as u, (k as u).Ascends le u) : (askAll qs s answers k).Ascends le s := by
  induction qs generalizing s answers with
  | nil => exact hk _ s
  | cons q qs ih => exact ascends_ask hrefl (hrefl s) fun a u _ => ih

variable (htrans : ∀ {s t u}, le s t → le t u → le s u)
  (hbody : ∀ q s, (body q s).Ascends le s)
include htrans hbody

theorem Yields.ascends {p : Plan σ ρ α} {s t : σ} {a : α} (hy : Yields body p a t)
    (hp : p.Ascends le s) : le s t := by
  induction hy generalizing s with
  | answer a t => exact hp
  | @jump q t u a hq ih => exact htrans hp (ih (hbody q t))
  | @call q t u v k a b hq hk ihq ihk =>
    have hu : le t u := ihq (hbody q t)
    exact htrans hp.1 (htrans hu (ihk (hp.2 a u hu)))

/-- Every state that a run passes through stands above the one it started in. -/
theorem ascends_of_advance {fuel : Nat} {p : Plan σ ρ α} {s : σ}
    {ks : List (α → σ → Plan σ ρ α)} {c : Config σ ρ α}
    (h : advance body fuel ⟨p, ks⟩ = .unfinished c) (hp : p.Ascends le s)
    (hks : ∀ k ∈ ks, ∀ a u, le s u → (k a u).Ascends le u) : le s c.plan.state := by
  induction fuel generalizing p s ks with
  | zero =>
    cases h
    exact hp.state
  | succ fuel ih =>
    cases p with
    | answer a t =>
      cases ks with
      | nil => cases h
      | cons k ks =>
        refine htrans hp (ih h (hks k (by simp) a t hp) ?_)
        intro l hl b u hu
        exact hks l (by simp [hl]) b u (htrans hp hu)
    | jump q t =>
      refine htrans hp (ih h (hbody q t) ?_)
      intro l hl b u hu
      exact hks l hl b u (htrans hp hu)
    | call q t k =>
      refine htrans hp.1 (ih h (hbody q t) ?_)
      intro l hl b u hu
      rcases List.mem_cons.mp hl with rfl | hl
      · exact hp.2 b u hu
      · exact hks l hl b u (htrans hp.1 hu)

end Orders

end TreeScript.Plan

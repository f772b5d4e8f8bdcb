import TreeScript.Proofs.Evaluation.Positions

/-!
Evaluation under a limit on nested calls comes to its end. Every request that a node makes
is for a smaller term with as much room for calls, or for the body of a call with less room.
-/
namespace TreeScript

theorem Worklist.le_load {α : Type} {weight : α → Nat} {a : α} {as : List α} (h : a ∈ as) :
    weight a ≤ load weight as := by
  induction as with
  | nil => cases h
  | cons b as ih =>
    rw [load_cons]
    rcases List.mem_cons.mp h with rfl | h
    · exact Nat.le_add_right _ _
    · exact Nat.le_add_left_of_le (ih h)

theorem Term.sizeOf_lt_of_mem_children {t c : Term} (h : c ∈ t.children) : sizeOf c < sizeOf t :=
  Nat.lt_of_le_of_lt (Worklist.le_load h) (load_children t)

namespace Evaluation

/-- How many calls more may be in progress under the limit `m`. -/
def State.room (m : Nat) (s : State) : Nat := m - s.stack.depth

/-- A request made under a limit is for a smaller term, or leaves room for one call less. -/
theorem Makes.descends {m : Nat} {q p : Request} {s t : State} (h : Makes q s p t)
    (hlimit : s.stack.limit = some m) :
    t.stack.limit = some m ∧
      (t.room m < s.room m ∨ t.room m = s.room m ∧ sizeOf p.term < sizeOf q.term) := by
  cases h with
  | child hask =>
    rw [State.room, State.room, hask.stack_eq]
    exact ⟨hlimit, .inr ⟨rfl, Term.sizeOf_lt_of_mem_children hask.mem_children⟩⟩
  | @body call c vs u henter =>
    have hu : u.stack.limit = some m := henter.stack_eq ▸ hlimit
    refine ⟨hu, .inl ?_⟩
    cases henter with
    | call hc hvs _ hroom =>
      have hlt := hroom m hu
      have hdepth : u.stack.depth = s.stack.depth := by rw [hvs.stack_eq, hc.stack_eq]; rfl
      simp only [State.room, State.stack_called, CallStack.depth_enter]
      omega

/-- Under a limit every request has an answer. -/
theorem exists_yields_of_limit {m : Nat} (q : Request) (s : State)
    (hlimit : s.stack.limit = some m) : ∃ r u, Plan.Yields body (body q s) r u := by
  apply (demands_body q s).exists_yields
  intro p t hmade
  obtain ⟨ht, hless⟩ := hmade.descends hlimit
  exact exists_yields_of_limit p t ht
termination_by (s.room m, sizeOf q.term)
decreasing_by
  rcases hless with hroom | ⟨hroom, hsize⟩
  · exact .left _ _ hroom
  · exact hroom ▸ .right _ hsize

end Evaluation

/-- Under a limit on nested calls every evaluation comes to a value or a failure, whatever the
term, the frames and the closures in them. -/
theorem limited_evaluation_returns (i : Interpreter) (t : Term) (f : FrameId) (m : Nat)
    (hlimit : i.state.stack.limit = some m) : ∃ fuel r j, i.evaluate fuel t f = some (r, j) := by
  obtain ⟨r, u, hy⟩ := Evaluation.exists_yields_of_limit ⟨t, f⟩ i.state hlimit
  have hreturns : i.Returns t f r ⟨i.root, u⟩ := Interpreter.returns_iff_yields.mpr ⟨rfl, hy⟩
  obtain ⟨fuel, h⟩ := hreturns
  exact ⟨fuel, r, _, h⟩

/-- A closure that does nothing but call what stands under the name `f`. -/
def selfCalling : Closure where
  identity := 0
  parameters := []
  body := .call (.var "f" .unstated) [] .unstated
  frame := ⟨0⟩
  location := .unstated

/-- An interpreter whose root binds that name to the closure itself. -/
def selfCallingHost : Interpreter :=
  let i := Interpreter.new (some 7) .silent false
  { i with state := i.state.bind i.root "f" (.closure selfCalling) }

theorem limited_evaluation_returns_selfCalling :
    selfCallingHost.state.stack.limit = some 7 ∧ ∃ fuel r j,
      selfCallingHost.evaluate fuel selfCalling.body selfCallingHost.root = some (r, j) :=
  ⟨rfl, limited_evaluation_returns _ _ _ 7 rfl⟩

end TreeScript

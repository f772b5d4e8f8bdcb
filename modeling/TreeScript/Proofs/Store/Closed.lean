import TreeScript.Proofs.Operation
import TreeScript.Proofs.Store.Visible
import TreeScript.Proofs.Term.Scoped

/-!
Closed stores: the body of every closure that a frame holds is scoped in the parameters
and in what the frame of the closure sees. Frames may hold closures over themselves.
-/
namespace TreeScript

namespace Store

/-- The handle is one to a frame of the store. -/
def Has (s : Store) (f : FrameId) : Prop := ∃ frame, s.frame? f = some frame

/-- The names that a term evaluated in the frame can use. -/
def visible (s : Store) (f : FrameId) : Set String := { name | s.Visible f name }

theorem Grows.has {s u : Store} {f : FrameId} (h : s.Grows u) (hf : s.Has f) : u.Has f := by
  obtain ⟨frame, hframe⟩ := hf
  obtain ⟨later, hlater, -⟩ := h f frame hframe
  exact ⟨later, hlater⟩

theorem Grows.visible {s u : Store} (h : s.Grows u) (f : FrameId) :
    s.visible f ⊆ u.visible f := fun _ hname => hname.mono h

theorem visible_bind {s : Store} {f : FrameId} (hf : s.Has f) (name : String) (v : Value) :
    insert name (s.visible f) ⊆ (s.bind f name v).visible f := by
  refine Set.insert_subset ?_ ((grows_bind s f name v).visible f)
  obtain ⟨frame, hframe⟩ := hf
  have hlater : (s.bind f name v).frame? f =
      some { frame with bindings := frame.bindings.bind name v } := by
    rw [frame?_bind, if_pos rfl, hframe]
    rfl
  exact .here hlater (Bindings.contains_bind.mpr (.inl rfl))

/-- The frame of a call sees its parameters and what the closure's own frame sees. -/
theorem visible_newChild (s : Store) (parent : FrameId) {parameters : List Parameter}
    {arguments : List Value} (h : arguments.length = parameters.length) :
    s.visible parent ∪ parameterNames parameters ⊆
      (s.newChild parent parameters arguments).2.visible ⟨s.frames.size⟩ := by
  have hchild := frame?_newChild s parent ⟨s.frames.size⟩ parameters arguments
  rw [if_pos rfl] at hchild
  apply Set.union_subset
  · intro name hname
    have hlt : parent.index < s.frames.size := by
      cases hname with
      | here hframe _ => exact index_lt_of_frame? hframe
      | above hframe _ _ _ => exact index_lt_of_frame? hframe
    exact .above hchild rfl hlt (hname.mono (keeps_newChild s parent _ _).grows)
  · rintro name ⟨p, hp, rfl⟩
    exact .here hchild (Bindings.contains_bindAll h hp)

end Store

/-- The body is scoped in its parameters and what the frame of the closure sees. -/
def Closure.Closed (s : Store) (c : Closure) : Prop :=
  Scoped (s.visible c.frame ∪ parameterNames c.parameters) c.body

namespace Value

/-- The closures that a value is or has among its parts. -/
def closures : Value → List Closure
  | .tuple left right => left.closures ++ right.closures
  | .closure c => [c]
  | _ => []

def Closed (s : Store) (v : Value) : Prop := ∀ c ∈ v.closures, c.Closed s

theorem Closed.mono {s u : Store} {v : Value} (h : v.Closed s) (hsu : s.Grows u) :
    v.Closed u := by
  intro c hc
  exact (h c hc).mono (Set.union_subset_union_left _ (hsu.visible c.frame))

theorem closed_of_closures {s : Store} {v : Value} (h : v.closures = []) : v.Closed s := by
  simp [Closed, h]

theorem closed_tuple {s : Store} {a b : Value} :
    (Value.tuple a b).Closed s ↔ a.Closed s ∧ b.Closed s := by
  simp only [Closed, closures, List.forall_mem_append]

theorem closed_closure {s : Store} {c : Closure} : (Value.closure c).Closed s ↔ c.Closed s := by
  simp only [Closed, closures, List.forall_mem_singleton]

end Value

/-- What an operator gives has no closures. -/
theorem Operator.closures_apply {op : Operator} {a b v : Value} (h : op.apply a b = .ok v) :
    v.closures = [] := by
  have hresults := op.results_apply a b
  rw [h] at hresults
  rcases hresults with hkind | hkind | hkind <;> cases v <;> first | rfl | cases hkind

namespace Store

/-- Every closure that a frame holds is closed. -/
def Closed (s : Store) : Prop :=
  ∀ f frame name v, s.frame? f = some frame → frame.bindings.get? name = some v → v.Closed s

theorem Closed.lookup {s : Store} {f : FrameId} {name : String} {v : Value} (hs : s.Closed)
    (h : s.lookup f name = some v) : v.Closed s := by
  obtain ⟨g, frame, hframe, hv⟩ := exists_frame_of_lookup h
  exact hs g frame name v hframe hv

theorem Closed.newClosure {s : Store} (hs : s.Closed) (parameters : List Parameter) (body : Term)
    (f : FrameId) (l : Location) : (s.newClosure parameters body f l).2.Closed :=
  fun g frame name v hframe hv =>
    (hs g frame name v hframe hv).mono (keeps_newClosure s parameters body f l).grows

/-- A value that its own binding closes may be bound. -/
theorem Closed.bind {s : Store} {f : FrameId} {name : String} {v : Value} (hs : s.Closed)
    (hv : v.Closed (s.bind f name v)) : (s.bind f name v).Closed := by
  have hgrows := grows_bind s f name v
  intro g frame other w hframe hw
  rw [frame?_bind] at hframe
  split at hframe
  · obtain ⟨old, hold, rfl⟩ := Option.map_eq_some_iff.mp hframe
    rw [Bindings.get?_bind] at hw
    split at hw
    · exact Option.some.inj hw ▸ hv
    · exact (hs g old other w hold hw).mono hgrows
  · exact (hs g frame other w hframe hw).mono hgrows

theorem Closed.newChild {s : Store} {parent : FrameId} {parameters : List Parameter}
    {arguments : List Value} (hs : s.Closed) (hvs : ∀ v ∈ arguments, v.Closed s) :
    (s.newChild parent parameters arguments).2.Closed := by
  have hgrows := (keeps_newChild s parent parameters arguments).grows
  intro g frame name v hframe hv
  rw [frame?_newChild] at hframe
  split at hframe
  · cases hframe
    rcases Bindings.mem_of_get?_bindAll hv with hmem | hnil
    · exact (hvs v hmem).mono hgrows
    · cases hnil
  · exact (hs g frame name v hframe hv).mono hgrows

end Store

end TreeScript

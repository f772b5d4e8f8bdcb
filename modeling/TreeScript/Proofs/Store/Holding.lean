import TreeScript.Proofs.Store.Closed

/-!
The closures that a store holds, in values of its own or as parts of tuples. Each operation on
frames adds no closures but those of the values it is given.
-/
namespace TreeScript.Store

/-- A frame of the store binds a name to the closure or to a tuple with it. -/
def Holds (s : Store) (c : Closure) : Prop :=
  ∃ f frame name v, s.frame? f = some frame ∧ frame.bindings.get? name = some v ∧ c ∈ v.closures

theorem Holds.of_frames {s u : Store} {c : Closure} (h : u.frames = s.frames) (hc : u.Holds c) :
    s.Holds c := by
  obtain ⟨f, frame, name, v, hframe, hv, hmem⟩ := hc
  rw [frame?, h] at hframe
  exact ⟨f, frame, name, v, hframe, hv, hmem⟩

theorem holds_of_lookup {s : Store} {f : FrameId} {name : String} {v : Value} {c : Closure}
    (h : s.lookup f name = some v) (hc : c ∈ v.closures) : s.Holds c := by
  obtain ⟨g, frame, hframe, hv⟩ := exists_frame_of_lookup h
  exact ⟨g, frame, name, v, hframe, hv, hc⟩

theorem Holds.of_bind {s : Store} {f : FrameId} {name : String} {v : Value} {c : Closure}
    (h : (s.bind f name v).Holds c) : c ∈ v.closures ∨ s.Holds c := by
  obtain ⟨g, frame, other, w, hframe, hw, hc⟩ := h
  rw [frame?_bind] at hframe
  split at hframe
  · obtain ⟨old, hold, rfl⟩ := Option.map_eq_some_iff.mp hframe
    rw [Bindings.get?_bind] at hw
    split at hw
    · exact .inl (Option.some.inj hw ▸ hc)
    · exact .inr ⟨g, old, other, w, hold, hw, hc⟩
  · exact .inr ⟨g, frame, other, w, hframe, hw, hc⟩

theorem Holds.of_newChild {s : Store} {parent : FrameId} {parameters : List Parameter}
    {arguments : List Value} {c : Closure}
    (h : (s.newChild parent parameters arguments).2.Holds c) :
    (∃ v ∈ arguments, c ∈ v.closures) ∨ s.Holds c := by
  obtain ⟨g, frame, name, v, hframe, hv, hc⟩ := h
  rw [frame?_newChild] at hframe
  split at hframe
  · cases hframe
    rcases Bindings.mem_of_get?_bindAll hv with hmem | hnil
    · exact .inl ⟨v, hmem, hc⟩
    · cases hnil
  · exact .inr ⟨g, frame, name, v, hframe, hv, hc⟩

end TreeScript.Store

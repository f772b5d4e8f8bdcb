import TreeScript.Store

/-!
What each operation does to the frames of a store, and two ways in which a store can come
after another: all frames are kept as they are, or one frame has names bound anew and the
others are kept.
-/
namespace TreeScript

namespace Bindings

theorem contains_iff {name : String} {b : Bindings} :
    b.contains name = true ↔ ∃ v, b.get? name = some v :=
  Option.isSome_iff_exists

theorem contains_bind {name other : String} {value : Value} {b : Bindings} :
    (b.bind name value).contains other = true ↔ name = other ∨ b.contains other = true := by
  by_cases h : name = other <;> simp [contains, get?_bind, h]

theorem bindAll_cons (p : Parameter) (ps : List Parameter) (v : Value) (vs : List Value)
    (b : Bindings) : bindAll (p :: ps) (v :: vs) b = bindAll ps vs (b.bind p.text v) := rfl

/-- What a frame of parameters binds is an argument, if it was not bound before. -/
theorem mem_of_get?_bindAll {name : String} {v : Value} {ps : List Parameter} {vs : List Value}
    {b : Bindings} (h : (bindAll ps vs b).get? name = some v) :
    v ∈ vs ∨ b.get? name = some v := by
  induction ps generalizing vs b with
  | nil => exact .inr h
  | cons p ps ih =>
    cases vs with
    | nil => exact .inr h
    | cons w vs =>
      rw [bindAll_cons] at h
      rcases ih h with hv | hv
      · exact .inl (List.mem_cons_of_mem w hv)
      · rw [get?_bind] at hv
        split at hv
        · exact .inl (Option.some.inj hv ▸ List.mem_cons_self)
        · exact .inr hv

theorem mem_of_contains_bindAll {name : String} {ps : List Parameter} {vs : List Value}
    {b : Bindings} (h : (bindAll ps vs b).contains name = true) :
    name ∈ ps.map Parameter.text ∨ b.contains name = true := by
  induction ps generalizing vs b with
  | nil => exact .inr h
  | cons p ps ih =>
    cases vs with
    | nil => exact .inr h
    | cons v vs =>
      rw [bindAll_cons] at h
      rw [List.map_cons, List.mem_cons, or_assoc]
      rcases ih h with hname | hname
      · exact .inr (.inl hname)
      · exact (contains_bind.mp hname).imp Eq.symm .inr

theorem contains_bindAll_of_contains {name : String} {ps : List Parameter} {vs : List Value}
    {b : Bindings} (h : b.contains name = true) : (bindAll ps vs b).contains name = true := by
  induction ps generalizing vs b with
  | nil => exact h
  | cons p ps ih =>
    cases vs with
    | nil => exact h
    | cons v vs => exact ih (contains_bind.mpr (.inr h))

/-- With an argument for each parameter, every parameter is bound. -/
theorem contains_bindAll {p : Parameter} {ps : List Parameter} {vs : List Value} {b : Bindings}
    (hlength : vs.length = ps.length) (hp : p ∈ ps) :
    (bindAll ps vs b).contains p.text = true := by
  induction ps generalizing vs b with
  | nil => cases hp
  | cons q ps ih =>
    cases vs with
    | nil => cases hlength
    | cons v vs =>
      rw [bindAll_cons]
      rcases List.mem_cons.mp hp with rfl | hp
      · exact contains_bindAll_of_contains (contains_bind.mpr (.inl rfl))
      · exact ih (Nat.succ.inj hlength) hp

end Bindings

namespace Store

theorem frame?_bind (s : Store) (f g : FrameId) (name : String) (v : Value) :
    (s.bind f name v).frame? g =
      if g = f then (s.frame? g).map fun frame =>
        { frame with bindings := frame.bindings.bind name v }
      else s.frame? g := by
  simp only [frame?, bind, Array.getElem?_modify]
  by_cases h : g = f
  · subst h
    simp
  · have hindex : f.index ≠ g.index := fun he => h (congrArg FrameId.mk he.symm)
    simp [h, hindex]

theorem frame?_newChild (s : Store) (parent g : FrameId) (ps : List Parameter)
    (vs : List Value) :
    (s.newChild parent ps vs).2.frame? g =
      if g.index = s.frames.size then some ⟨Bindings.bindAll ps vs [], some parent⟩
      else s.frame? g := by
  simp only [frame?, newChild, Array.getElem?_push]

theorem index_lt_of_frame? {s : Store} {g : FrameId} {frame : Frame}
    (h : s.frame? g = some frame) : g.index < s.frames.size := by
  obtain ⟨hlt, -⟩ := Array.getElem?_eq_some_iff.mp h
  exact hlt

/-- Every frame stays as it is. -/
def Keeps (s u : Store) : Prop :=
  ∀ g frame, s.frame? g = some frame → u.frame? g = some frame

theorem keeps_newChild (s : Store) (parent : FrameId) (ps : List Parameter) (vs : List Value) :
    s.Keeps (s.newChild parent ps vs).2 := by
  intro g frame h
  have hlt := index_lt_of_frame? h
  rw [frame?_newChild, if_neg (Nat.ne_of_lt hlt)]
  exact h

theorem keeps_newClosure (s : Store) (parameters : List Parameter) (body : Term) (f : FrameId)
    (l : Location) : s.Keeps (s.newClosure parameters body f l).2 :=
  fun _ _ h => h

/-- Names of `names` may be bound anew in the frame `f`. It stays under its parent and
loses no name; every other frame stays as it is. -/
structure Rebinds (names : String → Prop) (f : FrameId) (s u : Store) : Prop where
  other : ∀ g frame, g ≠ f → s.frame? g = some frame → u.frame? g = some frame
  own : ∀ frame, s.frame? f = some frame → ∃ later, u.frame? f = some later ∧
    later.parent = frame.parent ∧
    (∀ name, frame.bindings.contains name = true → later.bindings.contains name = true) ∧
    ∀ name, ¬ names name → later.bindings.get? name = frame.bindings.get? name

namespace Rebinds
variable {names : String → Prop} {f : FrameId} {s t u : Store}

theorem of_keeps (h : s.Keeps u) : Rebinds names f s u where
  other g frame _ hg := h g frame hg
  own frame hf := ⟨frame, h f frame hf, rfl, fun _ hn => hn, fun _ _ => rfl⟩

theorem refl (s : Store) : Rebinds names f s s := of_keeps fun _ _ h => h

theorem trans (hs : Rebinds names f s t) (ht : Rebinds names f t u) : Rebinds names f s u where
  other g frame hg hframe := ht.other g frame hg (hs.other g frame hg hframe)
  own frame hframe := by
    obtain ⟨middle, hmiddle, hparent, hkept, hsame⟩ := hs.own frame hframe
    obtain ⟨later, hlater, hparent', hkept', hsame'⟩ := ht.own middle hmiddle
    refine ⟨later, hlater, hparent'.trans hparent, ?_, ?_⟩
    · intro name hname
      exact hkept' name (hkept name hname)
    · intro name hname
      exact (hsame' name hname).trans (hsame name hname)

theorem mono {more : String → Prop} (hmore : ∀ name, names name → more name)
    (h : Rebinds names f s u) : Rebinds more f s u where
  other := h.other
  own frame hframe := by
    obtain ⟨later, hlater, hparent, hkept, hsame⟩ := h.own frame hframe
    exact ⟨later, hlater, hparent, hkept, fun name hname => hsame name (mt (hmore name) hname)⟩

theorem bind {name : String} (hname : names name) (v : Value) :
    Rebinds names f s (s.bind f name v) where
  other g frame hg hframe := by
    rw [frame?_bind, if_neg hg]
    exact hframe
  own frame hframe := by
    refine ⟨{ frame with bindings := frame.bindings.bind name v }, ?_, rfl, ?_, ?_⟩
    · rw [frame?_bind, if_pos rfl, hframe]
      rfl
    · intro other hother
      exact Bindings.contains_bind.mpr (.inr hother)
    · intro other hother
      have hne : name ≠ other := fun h => hother (h ▸ hname)
      simp only [Bindings.get?_bind, hne, ↓reduceIte]

end Rebinds

end Store

end TreeScript

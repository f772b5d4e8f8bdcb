import TreeScript.Proofs.Store.Frames

/-!
The names visible from a frame: those that it or a frame above it binds. A lookup finds
exactly these names, and finds only values that some frame holds.
-/
namespace TreeScript.Store

/-- The frame or one above it, up to the root, binds the name. -/
inductive Visible (s : Store) : FrameId → String → Prop where
  | here {f : FrameId} {frame : Frame} {name : String} :
      s.frame? f = some frame → frame.bindings.contains name = true → Visible s f name
  | above {f parent : FrameId} {frame : Frame} {name : String} :
      s.frame? f = some frame → frame.parent = some parent → parent.index < f.index →
      Visible s parent name → Visible s f name

theorem Visible.exists_lookup {s : Store} {f : FrameId} {name : String}
    (h : s.Visible f name) : ∃ v, s.lookup f name = some v := by
  induction h with
  | here hframe hname =>
    obtain ⟨v, hv⟩ := Bindings.contains_iff.mp hname
    exact ⟨v, by simp [lookup, hframe, hv]⟩
  | @above f parent frame name hframe hparent hlt _ ih =>
    rw [lookup, hframe]
    cases hv : frame.bindings.get? name with
    | some v => exact ⟨v, by simp [hv]⟩
    | none => simpa [hv, hparent, hlt] using ih

theorem visible_of_lookup {s : Store} {f : FrameId} {name : String} {v : Value}
    (h : s.lookup f name = some v) : s.Visible f name := by
  fun_induction lookup s f name with
  | case1 f hframe => cases h
  | case2 f frame hframe w hw => exact .here hframe (Bindings.contains_iff.mpr ⟨w, hw⟩)
  | case3 f frame hframe hnone hroot => cases h
  | case4 f frame hframe hnone parent hparent hlt ih => exact .above hframe hparent hlt (ih h)
  | case5 f frame hframe hnone parent hparent hge => cases h

/-- A lookup finds the visible names and no others. -/
theorem visible_iff_exists_lookup {s : Store} {f : FrameId} {name : String} :
    s.Visible f name ↔ ∃ v, s.lookup f name = some v := by
  constructor
  · intro h
    exact h.exists_lookup
  · rintro ⟨v, hv⟩
    exact visible_of_lookup hv

/-- What a lookup finds is bound in some frame. -/
theorem exists_frame_of_lookup {s : Store} {f : FrameId} {name : String} {v : Value}
    (h : s.lookup f name = some v) :
    ∃ g frame, s.frame? g = some frame ∧ frame.bindings.get? name = some v := by
  fun_induction lookup s f name with
  | case1 f hframe => cases h
  | case2 f frame hframe w hw => exact ⟨f, frame, hframe, hw.trans h⟩
  | case3 f frame hframe hnone hroot => cases h
  | case4 f frame hframe hnone parent hparent hlt ih => exact ih h
  | case5 f frame hframe hnone parent hparent hge => cases h

/-- Every frame stays under its parent and loses no name. -/
def Grows (s u : Store) : Prop :=
  ∀ g frame, s.frame? g = some frame → ∃ later, u.frame? g = some later ∧
    later.parent = frame.parent ∧
    ∀ name, frame.bindings.contains name = true → later.bindings.contains name = true

theorem Grows.refl (s : Store) : s.Grows s :=
  fun _ frame hg => ⟨frame, hg, rfl, fun _ hname => hname⟩

theorem Grows.trans {s t u : Store} (hst : s.Grows t) (htu : t.Grows u) : s.Grows u := by
  intro g frame hg
  obtain ⟨middle, hmiddle, hparent, hkept⟩ := hst g frame hg
  obtain ⟨later, hlater, hparent', hkept'⟩ := htu g middle hmiddle
  exact ⟨later, hlater, hparent'.trans hparent, fun name hname => hkept' name (hkept name hname)⟩

theorem Keeps.grows {s u : Store} (h : s.Keeps u) : s.Grows u :=
  fun g frame hg => ⟨frame, h g frame hg, rfl, fun _ hname => hname⟩

theorem Rebinds.grows {names : String → Prop} {f : FrameId} {s u : Store}
    (h : s.Rebinds names f u) : s.Grows u := by
  intro g frame hg
  by_cases hgf : g = f
  · subst hgf
    obtain ⟨later, hlater, hparent, hkept, -⟩ := h.own frame hg
    exact ⟨later, hlater, hparent, hkept⟩
  · exact ⟨frame, h.other g frame hgf hg, rfl, fun _ hname => hname⟩

theorem grows_bind (s : Store) (f : FrameId) (name : String) (v : Value) :
    s.Grows (s.bind f name v) := by
  have h : s.Rebinds (fun _ => True) f (s.bind f name v) := .bind trivial v
  exact h.grows

theorem Visible.mono {s u : Store} {f : FrameId} {name : String} (hsu : s.Grows u)
    (h : s.Visible f name) : u.Visible f name := by
  induction h with
  | here hframe hname =>
    obtain ⟨later, hlater, -, hkept⟩ := hsu _ _ hframe
    exact .here hlater (hkept _ hname)
  | above hframe hparent hlt _ ih =>
    obtain ⟨later, hlater, hsame, -⟩ := hsu _ _ hframe
    exact .above hlater (hsame.trans hparent) hlt ih

end TreeScript.Store

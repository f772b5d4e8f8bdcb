import TreeScript.Proofs.Store.Visible

/-!
The frames above a frame. A lookup searches the frames from its own up to the root, and the
depth of a frame counts them.
-/
namespace TreeScript.Store

/-- The frames from one up to the root, both included. -/
inductive Ancestry (s : Store) : FrameId → List FrameId → Prop where
  | root {f : FrameId} {frame : Frame} :
      s.frame? f = some frame → frame.parent = none → Ancestry s f [f]
  | child {f parent : FrameId} {frame : Frame} {above : List FrameId} :
      s.frame? f = some frame → frame.parent = some parent → Ancestry s parent above →
      Ancestry s f (f :: above)

/-- Every frame is younger than its parent. -/
def ParentsFirst (s : Store) : Prop :=
  ∀ f frame parent, s.frame? f = some frame → frame.parent = some parent → parent.index < f.index

/-- What the frame itself binds the name to. -/
def own? (s : Store) (name : String) (f : FrameId) : Option Value :=
  (s.frame? f).bind fun frame => frame.bindings.get? name

namespace Ancestry
variable {s : Store} {f : FrameId} {frames : List FrameId}

theorem depth_eq (h : s.Ancestry f frames) (hs : s.ParentsFirst) : s.depth f = frames.length := by
  induction h with
  | root hframe hroot => simp [depth, hframe, hroot]
  | @child f parent frame above hframe hparent _ ih =>
    have hlt := hs f frame parent hframe hparent
    rw [depth, hframe]
    simp [hparent, hlt, ih]

theorem lookup_eq (h : s.Ancestry f frames) (hs : s.ParentsFirst) (name : String) :
    s.lookup f name = frames.findSome? (s.own? name) := by
  induction h with
  | @root f frame hframe hroot =>
    rw [lookup, hframe]
    cases hv : frame.bindings.get? name <;> simp [own?, hframe, hv, hroot]
  | @child f parent frame above hframe hparent _ ih =>
    have hlt := hs f frame parent hframe hparent
    rw [lookup, hframe]
    cases hv : frame.bindings.get? name <;> simp [own?, hframe, hv, hparent, hlt, ih]

end Ancestry

end TreeScript.Store

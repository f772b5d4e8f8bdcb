import TreeScript.Proofs.Store.Frames
import TreeScript.Proofs.Term.Locations
import TreeScript.Proofs.Value.Related

/-!
Values and frames whose locations are changed. What is bound where does not depend on locations.
-/
namespace TreeScript

variable (φ : Location → Location)

def Closure.mapLocations (c : Closure) : Closure :=
  ⟨c.identity, c.parameters.map (Parameter.mapLocations φ), c.body.mapLocations φ, c.frame,
    φ c.location⟩

def Value.mapLocations : Value → Value
  | .int n => .int n
  | .str s => .str s
  | .bool b => .bool b
  | .tuple a b => .tuple a.mapLocations b.mapLocations
  | .closure c => .closure (c.mapLocations φ)

theorem Value.related_mapLocations_iff {v v' : Value} :
    v.Related (fun c c' => c' = c.mapLocations φ) v' ↔ v' = v.mapLocations φ := by
  constructor
  · intro h
    induction h with
    | int | str | bool => rfl
    | tuple _ _ iha ihb => rw [iha, ihb, mapLocations]
    | closure h => rw [h, mapLocations]
  · rintro rfl
    induction v with
    | int n => exact .int n
    | str s => exact .str s
    | bool b => exact .bool b
    | tuple a b iha ihb => exact .tuple iha ihb
    | closure c => exact .closure rfl

theorem Value.eq_map_of_related {vs vs' : List Value}
    (h : List.Forall₂ (Value.Related fun c c' => c' = c.mapLocations φ) vs vs') :
    vs' = vs.map (Value.mapLocations φ) := by
  induction h with
  | nil => rfl
  | cons hv _ ih => rw [(related_mapLocations_iff φ).mp hv, ih, List.map_cons]

namespace Bindings

def mapLocations (b : Bindings) : Bindings := b.map fun entry => (entry.1, entry.2.mapLocations φ)

@[simp] theorem get?_mapLocations (name : String) (b : Bindings) :
    get? name (mapLocations φ b) = (b.get? name).map (Value.mapLocations φ) := by
  induction b with
  | nil => rfl
  | cons entry rest ih =>
    obtain ⟨key, value⟩ := entry
    by_cases hkey : key = name <;> simp_all [mapLocations, get?]

@[simp] theorem replace_mapLocations (name : String) (v : Value) (b : Bindings) :
    replace name (v.mapLocations φ) (mapLocations φ b) = mapLocations φ (replace name v b) := by
  induction b with
  | nil => rfl
  | cons entry rest ih =>
    obtain ⟨key, value⟩ := entry
    by_cases hkey : key = name <;> simp_all [mapLocations, replace]

@[simp] theorem bind_mapLocations (name : String) (v : Value) (b : Bindings) :
    bind name (v.mapLocations φ) (mapLocations φ b) = mapLocations φ (bind name v b) := by
  have hcontains : contains name (mapLocations φ b) = contains name b := by
    simp [contains]
  simp only [bind, hcontains, replace_mapLocations]
  split <;> rfl

theorem bindAll_mapLocations (ps : List Parameter) (vs : List Value) (b : Bindings) :
    bindAll (ps.map (Parameter.mapLocations φ)) (vs.map (Value.mapLocations φ)) (mapLocations φ b) =
      mapLocations φ (bindAll ps vs b) := by
  induction ps generalizing vs b with
  | nil => rfl
  | cons p ps ih =>
    cases vs with
    | nil => rfl
    | cons v vs =>
      rw [List.map_cons, List.map_cons, bindAll_cons, bindAll_cons, Parameter.text_mapLocations,
        bind_mapLocations, ih]

end Bindings

def Frame.mapLocations (frame : Frame) : Frame :=
  ⟨frame.bindings.mapLocations φ, frame.parent⟩

namespace Store

def mapLocations (s : Store) : Store := ⟨s.frames.map (Frame.mapLocations φ), s.closures⟩

@[simp] theorem frame?_mapLocations (s : Store) (f : FrameId) :
    (s.mapLocations φ).frame? f = (s.frame? f).map (Frame.mapLocations φ) := by
  simp [frame?, mapLocations]

@[simp] theorem size_frames_mapLocations (s : Store) :
    (s.mapLocations φ).frames.size = s.frames.size := Array.size_map

theorem bind_mapLocations (s : Store) (f : FrameId) (name : String) (v : Value) :
    (s.mapLocations φ).bind f name (v.mapLocations φ) = (s.bind f name v).mapLocations φ := by
  unfold bind mapLocations
  congr 1
  apply Array.ext_getElem?
  intro index
  by_cases h : f.index = index
  · simp [Array.getElem?_modify, h, Function.comp_def, Frame.mapLocations]
  · simp [Array.getElem?_modify, h]

theorem newChild_mapLocations (s : Store) (parent : FrameId) (ps : List Parameter)
    (vs : List Value) :
    ((s.mapLocations φ).newChild parent (ps.map (Parameter.mapLocations φ))
        (vs.map (Value.mapLocations φ))).2 = (s.newChild parent ps vs).2.mapLocations φ := by
  have hbindings := Bindings.bindAll_mapLocations φ ps vs []
  simp only [newChild, mapLocations, Array.map_push, Frame.mapLocations, ← hbindings]
  rfl

theorem lookup_mapLocations (s : Store) (f : FrameId) (name : String) :
    (s.mapLocations φ).lookup f name = (s.lookup f name).map (Value.mapLocations φ) := by
  fun_induction lookup s f name with
  | case1 f hframe =>
    rw [lookup, frame?_mapLocations, hframe]
    rfl
  | case2 f frame hframe v hv =>
    rw [lookup, frame?_mapLocations, hframe]
    simp [Frame.mapLocations, hv]
  | case3 f frame hframe hnone hroot =>
    rw [lookup, frame?_mapLocations, hframe]
    simp [Frame.mapLocations, hnone, hroot]
  | case4 f frame hframe hnone parent hparent hlt ih =>
    rw [lookup, frame?_mapLocations, hframe]
    simp [Frame.mapLocations, hnone, hparent, hlt, ih]
  | case5 f frame hframe hnone parent hparent hge =>
    rw [lookup, frame?_mapLocations, hframe]
    simp [Frame.mapLocations, hnone, hparent, hge]

end Store

end TreeScript

import TreeScript.Proofs.Evaluation.Calls
import TreeScript.Proofs.Term.Locations

/-!
Failures and calls in progress whose locations are changed. No operation on them looks at a
location.
-/
namespace TreeScript

variable (φ : Location → Location)

def Call.mapLocations (c : Call) : Call := ⟨c.name, φ c.location⟩

def Backtrace.mapLocations (b : Backtrace) : Backtrace := ⟨b.calls.map (Call.mapLocations φ)⟩

def Failure.Note.mapLocations (note : Failure.Note) : Failure.Note :=
  ⟨note.message, φ note.location⟩

def Failure.mapLocations (e : Failure) : Failure :=
  ⟨e.cause, e.message, e.location.map φ, e.backtrace.map (Backtrace.mapLocations φ),
    e.notes.map (Failure.Note.mapLocations φ)⟩

def CallStack.mapLocations (s : CallStack) : CallStack :=
  ⟨s.calls.map (Call.mapLocations φ), s.limit⟩

@[simp] theorem Call.mapLocations_id (c : Call) : c.mapLocations id = c := rfl

@[simp] theorem Failure.mapLocations_id (e : Failure) : e.mapLocations id = e := by
  have hcalls : Call.mapLocations id = id := rfl
  have hnotes : Failure.Note.mapLocations id = id := rfl
  have hbacktrace : Backtrace.mapLocations id = id := by
    funext b
    simp [Backtrace.mapLocations, hcalls]
  simp [mapLocations, hnotes, hbacktrace]

@[simp] theorem CallStack.mapLocations_id (s : CallStack) : s.mapLocations id = s := by
  have hcalls : Call.mapLocations id = id := rfl
  simp [mapLocations, hcalls]

namespace Failure

@[simp] theorem mapLocations_ofCause (cause : Cause) :
    (ofCause cause).mapLocations φ = ofCause cause := rfl

@[simp] theorem mapLocations_withNote (e : Failure) (note : Note) :
    (e.withNote note).mapLocations φ = (e.mapLocations φ).withNote (note.mapLocations φ) := by
  simp [withNote, mapLocations]

@[simp] theorem mapLocations_located (e : Failure) (l : Location) :
    (e.located l).mapLocations φ = (e.mapLocations φ).located (φ l) := rfl

end Failure

namespace CallStack

@[simp] theorem depth_mapLocations (s : CallStack) : (s.mapLocations φ).depth = s.depth := by
  simp [mapLocations, depth]

@[simp] theorem exhausted?_mapLocations (s : CallStack) :
    (s.mapLocations φ).exhausted? = s.exhausted? := by
  simp only [exhausted?, depth_mapLocations]
  rfl

@[simp] theorem enter_mapLocations (s : CallStack) (c : Call) :
    (s.mapLocations φ).enter (c.mapLocations φ) = (s.enter c).mapLocations φ := by
  simp [mapLocations, enter]

@[simp] theorem pop_mapLocations (s : CallStack) :
    (s.mapLocations φ).pop = s.pop.mapLocations φ := by
  simp [mapLocations, pop]

@[simp] theorem capture_mapLocations (s : CallStack) :
    (s.mapLocations φ).capture = s.capture.mapLocations φ := by
  simp [mapLocations, capture, Backtrace.mapLocations]

@[simp] theorem attach_mapLocations (s : CallStack) (e : Failure) :
    (s.mapLocations φ).attach (e.mapLocations φ) = (s.attach e).mapLocations φ := by
  have hempty : (s.mapLocations φ).isEmpty = s.isEmpty := by
    simp [mapLocations, isEmpty, Array.isEmpty]
  have hkept : (e.mapLocations φ).backtrace.isSome = e.backtrace.isSome := by
    simp [Failure.mapLocations]
  simp only [attach, hempty, hkept, capture_mapLocations]
  split <;> rfl

end CallStack

end TreeScript

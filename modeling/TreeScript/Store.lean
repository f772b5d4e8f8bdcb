import TreeScript.Value.Basic

/-!
Frames of bindings. A frame belongs to no environment alone: every handle to it sees
what is bound through any other. A frame made as a child looks names up in its parent
when it does not bind them itself.
-/
namespace TreeScript

/-- The bindings of a frame, each name once. -/
abbrev Bindings := List (String × Value)

namespace Bindings

def get? (name : String) : Bindings → Option Value
  | [] => none
  | (key, value) :: rest => if key = name then some value else get? name rest

def contains (name : String) (b : Bindings) : Bool := (b.get? name).isSome

def replace (name : String) (value : Value) : Bindings → Bindings
  | [] => []
  | (key, old) :: rest =>
    if key = name then (name, value) :: rest else (key, old) :: replace name value rest

/-- A new name stands first; a name bound before keeps its place. -/
def bind (name : String) (value : Value) (b : Bindings) : Bindings :=
  if b.contains name then b.replace name value else (name, value) :: b

/-- Binds each parameter to its argument, in order. Surplus ones are left out. -/
def bindAll (parameters : List Parameter) (arguments : List Value) (b : Bindings) : Bindings :=
  (parameters.zip arguments).foldl (fun b (p, v) => bind p.text v b) b

theorem get?_replace (name other : String) (value : Value) (b : Bindings) :
    get? other (replace name value b) =
      if name = other ∧ (b.contains name) = true then some value else get? other b := by
  induction b with
  | nil => simp [replace, get?, contains]
  | cons entry rest ih =>
    obtain ⟨key, old⟩ := entry
    by_cases hk : key = name
    · subst hk
      by_cases ho : key = other <;> simp [replace, get?, contains, ho]
    · by_cases ho : key = other
      · subst ho
        simp [replace, get?, contains, hk, Ne.symm hk]
      · simp [replace, get?, contains, hk, ho] at ih ⊢
        exact ih

theorem get?_bind (name other : String) (value : Value) (b : Bindings) :
    get? other (bind name value b) = if name = other then some value else get? other b := by
  unfold bind
  split
  · rename_i h
    simp [get?_replace, h]
  · rfl

end Bindings

structure Frame where
  bindings : Bindings
  parent : Option FrameId

structure Store where
  frames : Array Frame
  /-- How many closures were made; the next one has this identity. -/
  closures : Nat

namespace Store

def empty : Store := ⟨#[], 0⟩

def frame? (s : Store) (f : FrameId) : Option Frame := s.frames[f.index]?

/-- A new frame without bindings and without parent. -/
def newRoot (s : Store) : FrameId × Store :=
  (⟨s.frames.size⟩, { s with frames := s.frames.push ⟨[], none⟩ })

/-- A new frame below another, with each parameter bound to its argument. -/
def newChild (s : Store) (parent : FrameId) (parameters : List Parameter)
    (arguments : List Value) : FrameId × Store :=
  (⟨s.frames.size⟩,
    { s with frames := s.frames.push ⟨Bindings.bindAll parameters arguments [], some parent⟩ })

def bind (s : Store) (f : FrameId) (name : String) (value : Value) : Store :=
  { s with
    frames := s.frames.modify f.index fun frame =>
      { frame with bindings := frame.bindings.bind name value } }

def newClosure (s : Store) (parameters : List Parameter) (body : Term) (f : FrameId)
    (l : Location) : Value × Store :=
  (.closure ⟨s.closures, parameters, body, f, l⟩, { s with closures := s.closures + 1 })

/-- The value of a name in the nearest frame that binds it. A parent is older than its
children, so the search ends. -/
def lookup (s : Store) (f : FrameId) (name : String) : Option Value :=
  match s.frame? f with
  | none => none
  | some frame =>
    match frame.bindings.get? name with
    | some value => some value
    | none =>
      match frame.parent with
      | none => none
      | some parent => if parent.index < f.index then s.lookup parent name else none
termination_by f.index

/-- How many frames there are from this one up to the root, both counted. -/
def depth (s : Store) (f : FrameId) : Nat :=
  match s.frame? f with
  | none => 1
  | some frame =>
    match frame.parent with
    | none => 1
    | some parent => if parent.index < f.index then s.depth parent + 1 else 1
termination_by f.index

/-- How many names a frame binds. -/
def size (s : Store) (f : FrameId) : Nat :=
  match s.frame? f with
  | none => 0
  | some frame => frame.bindings.length

/-- The debugging form of an environment. It never shows the values bound. -/
def debug (s : Store) (f : FrameId) : String :=
  "Environment \x7b bindings: " ++ Decimal.ofNat (s.size f) ++ ", depth: "
    ++ Decimal.ofNat (s.depth f) ++ " \x7d"

end Store

end TreeScript

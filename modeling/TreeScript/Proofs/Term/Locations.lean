import TreeScript.Term.Basic

/-!
Terms whose locations are changed, all by the same function. Without its locations a term has
only its shape, its names and its literals left.
-/
namespace TreeScript

/-- What is left of a location where locations do not count. -/
def Location.forget (_ : Location) : Location := .unstated

def Parameter.mapLocations (φ : Location → Location) (p : Parameter) : Parameter :=
  ⟨p.text, φ p.location⟩

@[simp] theorem Parameter.text_mapLocations (φ : Location → Location) (p : Parameter) :
    (p.mapLocations φ).text = p.text := rfl

@[simp] theorem Parameter.mapLocations_id : Parameter.mapLocations id = id := rfl

namespace Term

mutual

def mapLocations (φ : Location → Location) : Term → Term
  | .int n l => .int n (φ l)
  | .str s l => .str s (φ l)
  | .bool b l => .bool b (φ l)
  | .binary op lhs rhs l => .binary op (lhs.mapLocations φ) (rhs.mapLocations φ) (φ l)
  | .print value l => .print (value.mapLocations φ) (φ l)
  | .conditional condition consequent alternative l =>
    .conditional (condition.mapLocations φ) (consequent.mapLocations φ)
      (alternative.mapLocations φ) (φ l)
  | .first value l => .first (value.mapLocations φ) (φ l)
  | .second value l => .second (value.mapLocations φ) (φ l)
  | .tuple left right l => .tuple (left.mapLocations φ) (right.mapLocations φ) (φ l)
  | .var name l => .var name (φ l)
  | .binding name value next l =>
    .binding (name.mapLocations φ) (value.mapLocations φ) (next.mapLocations φ) (φ l)
  | .function parameters body l =>
    .function (parameters.map (Parameter.mapLocations φ)) (body.mapLocations φ) (φ l)
  | .call callee arguments l => .call (callee.mapLocations φ) (mapLocationsAll φ arguments) (φ l)

def mapLocationsAll (φ : Location → Location) : List Term → List Term
  | [] => []
  | t :: ts => t.mapLocations φ :: mapLocationsAll φ ts

end

theorem mapLocationsAll_eq_map (φ : Location → Location) (ts : List Term) :
    mapLocationsAll φ ts = ts.map (mapLocations φ) := by
  induction ts with
  | nil => rfl
  | cons t ts ih => rw [mapLocationsAll, ih, List.map_cons]

mutual

@[simp] theorem mapLocations_id (t : Term) : t.mapLocations id = t := by
  cases t with
  | int | str | bool | var => rfl
  | print value | first value | second value => simp [mapLocations, mapLocations_id value]
  | binary op lhs rhs => simp [mapLocations, mapLocations_id lhs, mapLocations_id rhs]
  | tuple left right => simp [mapLocations, mapLocations_id left, mapLocations_id right]
  | conditional condition consequent alternative =>
    simp [mapLocations, mapLocations_id condition, mapLocations_id consequent,
      mapLocations_id alternative]
  | binding name value next => simp [mapLocations, mapLocations_id value, mapLocations_id next]
  | function parameters body =>
    simp [mapLocations, mapLocations_id body]
  | call callee arguments =>
    simp [mapLocations, mapLocations_id callee, mapLocationsAll_id arguments]

theorem mapLocationsAll_id (ts : List Term) : mapLocationsAll id ts = ts := by
  cases ts with
  | nil => rfl
  | cons t ts => rw [mapLocationsAll, mapLocations_id t, mapLocationsAll_id ts]

end

end Term

end TreeScript

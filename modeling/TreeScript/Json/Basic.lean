/-!
JSON values. A number keeps its text, so no digit of it is lost. The fields of an
object stand in increasing order of their names, each name once.
-/
namespace TreeScript

inductive Json where
  | null
  | bool (value : Bool)
  | number (text : String)
  | string (text : String)
  | array (items : List Json)
  | object (fields : List (String × Json))

namespace Json

instance : Inhabited Json := ⟨.null⟩

abbrev Fields := List (String × Json)

namespace Fields

def get? (name : String) : Fields → Option Json
  | [] => none
  | (key, value) :: rest => if key = name then some value else get? name rest

/-- Puts a field at its place; an earlier field of the same name gives way. -/
def insert (name : String) (value : Json) : Fields → Fields
  | [] => [(name, value)]
  | (key, other) :: rest =>
    if name < key then (name, value) :: (key, other) :: rest
    else if name = key then (name, value) :: rest
    else (key, other) :: insert name value rest

def ofList (fields : List (String × Json)) : Fields :=
  fields.foldl (fun out field => insert field.1 field.2 out) []

@[simp] theorem get?_insert (name other : String) (value : Json) (fields : Fields) :
    get? other (insert name value fields) =
      if name = other then some value else get? other fields := by
  induction fields with
  | nil => simp [insert, get?]
  | cons field rest ih =>
    obtain ⟨key, old⟩ := field
    unfold insert
    split
    · simp [get?]
    · split
      · rename_i hkey
        subst hkey
        simp only [get?]
        split <;> rfl
      · rename_i hkey
        simp only [get?, ih]
        split
        · rename_i hk
          subst hk
          simp [hkey]
        · rfl

theorem sizeOf_get? {name : String} {value : Json} {fields : Fields}
    (h : get? name fields = some value) : sizeOf value < sizeOf fields := by
  induction fields with
  | nil => cases h
  | cons field rest ih =>
    obtain ⟨key, other⟩ := field
    simp only [get?] at h
    split at h
    · cases h
      simp
      omega
    · have := ih h
      simp
      omega

end Fields

def field? (name : String) : Json → Option Json
  | .object fields => Fields.get? name fields
  | _ => none

end Json

end TreeScript

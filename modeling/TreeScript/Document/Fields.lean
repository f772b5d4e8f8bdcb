import TreeScript.Document.Fault
import TreeScript.Json.Compact
import TreeScript.Term.Basic
import TreeScript.Checks

/-!
The parts of a document below its nodes: fields, numbers, locations and parameters.
The filename last read is remembered, so that equal names that follow one another
share one text.
-/
namespace TreeScript.Document

open Json (Fields)

/-- The filename last read, if any. -/
abbrev LastName := Option String

def field (fields : Fields) (holder : Holder) (name : String) : Except Fault Json :=
  match Fields.get? name fields with
  | some value => .ok value
  | none => .error (.missingField holder name)

def stringField (fields : Fields) (holder : Holder) (name : String) : Except Fault String := do
  match ← field fields holder name with
  | .string text => return text
  | _ => throw (.invalidField holder name .string)

def boolField (fields : Fields) (holder : Holder) (name : String) : Except Fault Bool := do
  match ← field fields holder name with
  | .bool value => return value
  | _ => throw (.invalidField holder name .boolean)

def arrayField (fields : Fields) (holder : Holder) (name : String) :
    Except Fault (List Json) := do
  match ← field fields holder name with
  | .array items => return items
  | _ => throw (.invalidField holder name .array)

/-- An offset is written in digits only and fits 32 bits. -/
def offset? : Json → Option UInt32
  | .number text =>
    match Decimal.nat? text.toList with
    | some n => if n < UInt32.size then some (UInt32.ofNat n) else none
    | none => none
  | _ => none

def offsetField (fields : Fields) (name : String) : Except Fault UInt32 := do
  match offset? (← field fields .location name) with
  | some n => return n
  | none => throw (.invalidField .location name .offset)

/-- An integer literal is a number without fraction and exponent. -/
def integer : Json → Except Fault Int
  | .number text =>
    match Decimal.int? text.toList with
    | some n => .ok n
    | none => .error (.invalidInteger text)
  | value => .error (.invalidInteger value.compact)

def operatorField (fields : Fields) : Except Fault Operator := do
  let tag ← stringField fields (.node .binary) "op"
  match Operator.ofTag? tag with
  | some op => return op
  | none => throw (.unknownOperator tag)

/-- The remembered text of a name, if it is the name last read. -/
def shared (name : String) : LastName → String
  | some last => if last = name then last else name
  | none => name

theorem shared_eq (name : String) (last : LastName) : shared name last = name := by
  unfold shared
  split
  · split <;> simp_all
  · rfl

def location (value : Json) (holder : Holder) (last : LastName) :
    Except Fault (Location × LastName) :=
  match value with
  | .object fields => do
    let name ← stringField fields .location "filename"
    let start ← offsetField fields "start"
    let stop ← offsetField fields "end"
    let name := shared name last
    return (⟨name, start, stop⟩, some name)
  | _ => .error (.invalidField holder "location" .object)

/-- The location of a part that may state one. -/
def ownLocation (fields : Fields) (holder : Holder) (last : LastName) :
    Except Fault (Location × LastName) :=
  match Fields.get? "location" fields with
  | some value => location value holder last
  | none => .ok (.unstated, last)

def parameter (value : Json) (last : LastName) : Except Fault (Parameter × LastName) :=
  match value with
  | .object fields => do
    let text ← stringField fields .parameter "text"
    let (location, last) ← ownLocation fields .parameter last
    return (⟨text, location⟩, last)
  | _ => .error (.expectedObject .parameter)

/-- Parameters from left to right, after those in `before`, which stand last one first. -/
def parameters (before : List Parameter) (values : List Json) (last : LastName) :
    Except Fault (List Parameter × LastName) :=
  match values with
  | [] => .ok (before.reverse, last)
  | value :: rest => do
    let (p, last) ← parameter value last
    parameters (p :: before) rest last

end TreeScript.Document

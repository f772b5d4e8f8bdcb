import TreeScript.Diagnostic.Code
import TreeScript.Location

/-!
Diagnostics: a message with a code, located labels and notes, and their plain text.
-/
namespace TreeScript

inductive Severity where
  | error | note
  deriving DecidableEq, Repr

def Severity.text : Severity → String
  | .error => "error"
  | .note => "note"

/-- A located message. The primary one is where the failure is. -/
structure Label where
  location : Location
  message : String
  isPrimary : Bool
  deriving DecidableEq, Repr

structure Diagnostic where
  code : Code
  severity : Severity
  message : String
  labels : List Label
  notes : List String
  deriving DecidableEq, Repr

namespace Diagnostic

def ofError (code : Code) (message : String) : Diagnostic := ⟨code, .error, message, [], []⟩

def withPrimary (d : Diagnostic) (l : Location) (message : String) : Diagnostic :=
  { d with labels := d.labels ++ [⟨l, message, true⟩] }

def withSecondary (d : Diagnostic) (l : Location) (message : String) : Diagnostic :=
  { d with labels := d.labels ++ [⟨l, message, false⟩] }

def withNote (d : Diagnostic) (note : String) : Diagnostic :=
  { d with notes := d.notes ++ [note] }

def primary? (d : Diagnostic) : Option Location :=
  (d.labels.find? Label.isPrimary).map Label.location

def secondary (d : Diagnostic) : List Label := d.labels.filter fun l => !l.isPrimary

def isError (d : Diagnostic) : Bool := d.severity == .error

/-- What stands before the message when no place is known. -/
def caption (d : Diagnostic) : String := d.severity.text ++ "[" ++ d.code.text ++ "]"

/-- The message after the place of the primary label, or after the caption. -/
def headline (d : Diagnostic) : String :=
  match d.primary? with
  | some l => l.text ++ ": " ++ d.message
  | none => d.caption ++ ": " ++ d.message

def text (d : Diagnostic) : String :=
  let out := d.secondary.foldl
    (fun out l => out ++ "\n  --> " ++ l.location.text ++ ": " ++ l.message) d.headline
  d.notes.foldl (fun out note => out ++ "\n  = note: " ++ note) out

end Diagnostic

end TreeScript

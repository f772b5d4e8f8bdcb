import TreeScript.Diagnostic.Basic
import TreeScript.Json.Compact

/-!
Diagnostics for programs: one JSON object a line.
-/
namespace TreeScript

open Json (Fields)

def Label.toJson (l : Label) : Json :=
  .object (Fields.ofList [
    ("filename", .string l.location.filename),
    ("start", .number (Decimal.ofNat l.location.start.toNat)),
    ("end", .number (Decimal.ofNat l.location.stop.toNat)),
    ("message", .string l.message),
    ("primary", .bool l.isPrimary)])

namespace Diagnostic

def toJson (d : Diagnostic) : Json :=
  .object (Fields.ofList [
    ("code", .string d.code.text),
    ("severity", .string d.severity.text),
    ("message", .string d.message),
    ("rendered", .string d.headline),
    ("labels", .array (d.labels.map Label.toJson)),
    ("notes", .array (d.notes.map Json.string))])

def jsonLine (d : Diagnostic) : String := d.toJson.compact ++ "\n"

def jsonLines (ds : List Diagnostic) : String :=
  ds.foldl (fun out d => out ++ d.jsonLine) ""

end Diagnostic

end TreeScript

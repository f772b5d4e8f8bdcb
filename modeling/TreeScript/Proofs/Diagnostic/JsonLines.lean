import Mathlib
import TreeScript.Diagnostic.JsonLines
import TreeScript.Document.Fields
import TreeScript.Proofs.Json.RoundTrip

/-!
Diagnostics read again from the lines that are written for programs. A diagnostic is recovered from
its object, the object from its line and the lines from the text, whatever the strings hold. Main
statement: the text has one line for each diagnostic and tells any two lists apart.
-/
namespace TreeScript

open Json (Fields Canonical)

namespace Json

def stringAt? (name : String) (value : Json) : Option String :=
  match value.field? name with
  | some (.string text) => some text
  | _ => none

def boolAt? (name : String) (value : Json) : Option Bool :=
  match value.field? name with
  | some (.bool b) => some b
  | _ => none

def offsetAt? (name : String) (value : Json) : Option UInt32 :=
  (value.field? name).bind Document.offset?

def itemsAt? (name : String) (value : Json) : Option (List Json) :=
  match value.field? name with
  | some (.array items) => some items
  | _ => none

def text? : Json → Option String
  | .string text => some text
  | _ => none

section Fields
variable {name : String} {value : Json}

theorem stringAt?_of_field? {text : String} (h : value.field? name = some (.string text)) :
    value.stringAt? name = some text := by
  rw [stringAt?, h]

theorem boolAt?_of_field? {b : Bool} (h : value.field? name = some (.bool b)) :
    value.boolAt? name = some b := by
  rw [boolAt?, h]

theorem itemsAt?_of_field? {items : List Json} (h : value.field? name = some (.array items)) :
    value.itemsAt? name = some items := by
  rw [itemsAt?, h]

theorem offset?_ofNat (n : UInt32) :
    Document.offset? (.number (Decimal.ofNat n.toNat)) = some n := by
  simp [Document.offset?, n.toNat_lt_size]

theorem offsetAt?_of_field? {n : UInt32}
    (h : value.field? name = some (.number (Decimal.ofNat n.toNat))) :
    value.offsetAt? name = some n := by
  rw [offsetAt?, h, Option.bind_some, offset?_ofNat]

end Fields

/-- A list is recovered item by item. -/
theorem mapM_map_eq_some {α β : Type} {f : α → β} {g : β → Option α} (h : ∀ a, g (f a) = some a)
    (as : List α) : (as.map f).mapM g = some as := by
  induction as with
  | nil => rfl
  | cons a as ih => simp [h, ih]

theorem text?_string (text : String) : text? (.string text) = some text := rfl

end Json

namespace Label

/-- The label that an object describes. -/
def ofJson? (value : Json) : Option Label := do
  let filename ← value.stringAt? "filename"
  let start ← value.offsetAt? "start"
  let stop ← value.offsetAt? "end"
  let message ← value.stringAt? "message"
  let isPrimary ← value.boolAt? "primary"
  return ⟨⟨filename, start, stop⟩, message, isPrimary⟩

theorem ofJson?_toJson (l : Label) : ofJson? l.toJson = some l := by
  have hfilename : l.toJson.stringAt? "filename" = some l.location.filename :=
    Json.stringAt?_of_field? (by simp [toJson, Json.field?, Fields.ofList])
  have hstart : l.toJson.offsetAt? "start" = some l.location.start :=
    Json.offsetAt?_of_field? (by simp [toJson, Json.field?, Fields.ofList])
  have hstop : l.toJson.offsetAt? "end" = some l.location.stop :=
    Json.offsetAt?_of_field? (by simp [toJson, Json.field?, Fields.ofList])
  have hmessage : l.toJson.stringAt? "message" = some l.message :=
    Json.stringAt?_of_field? (by simp [toJson, Json.field?, Fields.ofList])
  have hprimary : l.toJson.boolAt? "primary" = some l.isPrimary :=
    Json.boolAt?_of_field? (by simp [toJson, Json.field?, Fields.ofList])
  simp [ofJson?, hfilename, hstart, hstop, hmessage, hprimary]

theorem canonical_toJson (l : Label) : Canonical l.toJson := by
  apply Canonical.ofList
  simpa [Json.numberName] using ⟨.string _, .number l.location.start.toNat,
    .number l.location.stop.toNat, .string _, .bool _⟩

end Label

def Severity.ofText? : String → Option Severity
  | "error" => some .error
  | "note" => some .note
  | _ => none

theorem Severity.ofText?_text (s : Severity) : ofText? s.text = some s := by
  cases s <;> rfl

theorem Code.ofText?_text (c : Code) : ofText? c.text = some c := by
  cases c <;> decide +kernel

namespace Diagnostic

/-- The diagnostic that an object describes. -/
def ofJson? (value : Json) : Option Diagnostic := do
  let code ← Code.ofText? (← value.stringAt? "code")
  let severity ← Severity.ofText? (← value.stringAt? "severity")
  let message ← value.stringAt? "message"
  let labels ← (← value.itemsAt? "labels").mapM Label.ofJson?
  let notes ← (← value.itemsAt? "notes").mapM Json.text?
  return ⟨code, severity, message, labels, notes⟩

theorem ofJson?_toJson (d : Diagnostic) : ofJson? d.toJson = some d := by
  have hcode : d.toJson.stringAt? "code" = some d.code.text :=
    Json.stringAt?_of_field? (by simp [toJson, Json.field?, Fields.ofList])
  have hseverity : d.toJson.stringAt? "severity" = some d.severity.text :=
    Json.stringAt?_of_field? (by simp [toJson, Json.field?, Fields.ofList])
  have hmessage : d.toJson.stringAt? "message" = some d.message :=
    Json.stringAt?_of_field? (by simp [toJson, Json.field?, Fields.ofList])
  have hlabels : d.toJson.itemsAt? "labels" = some (d.labels.map Label.toJson) :=
    Json.itemsAt?_of_field? (by simp [toJson, Json.field?, Fields.ofList])
  have hnotes : d.toJson.itemsAt? "notes" = some (d.notes.map Json.string) :=
    Json.itemsAt?_of_field? (by simp [toJson, Json.field?, Fields.ofList])
  have hallLabels := Json.mapM_map_eq_some Label.ofJson?_toJson d.labels
  have hallNotes := Json.mapM_map_eq_some Json.text?_string d.notes
  simp [ofJson?, hcode, hseverity, hmessage, hlabels, hnotes, hallLabels, hallNotes,
    Code.ofText?_text, Severity.ofText?_text]

theorem canonical_toJson (d : Diagnostic) : Canonical d.toJson := by
  have hlabels : Canonical (.array (d.labels.map Label.toJson)) :=
    .array (List.forall_mem_map.mpr fun l _ => l.canonical_toJson)
  have hnotes : Canonical (.array (d.notes.map Json.string)) :=
    .array (List.forall_mem_map.mpr fun note _ => .string note)
  apply Canonical.ofList
  simpa [Json.numberName] using
    ⟨.string _, .string _, .string _, .string _, hlabels, hnotes⟩

/-- The keys of the object of a diagnostic, in their order. -/
def keys : List String := ["code", "labels", "message", "notes", "rendered", "severity"]

/-- The object has the keys of a diagnostic and no other, with the headline among them. -/
theorem toJson_eq_object (d : Diagnostic) :
    ∃ fields : Fields, d.toJson = .object fields ∧ fields.map Prod.fst = keys ∧
      fields.get? "rendered" = some (.string d.headline) :=
  ⟨_, rfl, by cbv, by simp [Fields.ofList]⟩

theorem jsonLines_cons (d : Diagnostic) (ds : List Diagnostic) :
    jsonLines (d :: ds) = d.jsonLine ++ jsonLines ds := by
  have hfold (out : String) :
      ds.foldl (fun out d => out ++ d.jsonLine) out = out ++ jsonLines ds := by
    unfold jsonLines
    induction ds generalizing out with
    | nil => simp
    | cons d ds ih =>
      simp only [List.foldl_cons]
      rw [ih, ih ("" ++ d.jsonLine)]
      simp [String.append_assoc]
  rw [jsonLines, List.foldl_cons, hfold, String.empty_append]

/-- Cut at its newlines, the text has the compact form of each diagnostic in turn, and nothing
after the last newline. -/
theorem splitOn_jsonLines (ds : List Diagnostic) :
    (jsonLines ds).toList.splitOn '\n' = ds.map (fun d => d.toJson.compact.toList) ++ [[]] := by
  induction ds with
  | nil => exact List.splitOn_nil '\n'
  | cons d ds ih =>
    have hline := List.splitOn_eq_singleton (Json.newline_not_mem_compact d.canonical_toJson)
    have htext : (jsonLines (d :: ds)).toList =
        d.toJson.compact.toList ++ '\n' :: (jsonLines ds).toList := by
      simp [jsonLines_cons, jsonLine]
    unfold List.splitOn at hline ih ⊢
    rw [htext, List.splitOnP_append_cons _ _ (by simp), hline, ih]
    rfl

/-- The diagnostic on a line. -/
def ofJsonLine? (line : List Char) : Option Diagnostic :=
  match Json.parse (String.ofList line) with
  | .ok value => ofJson? value
  | .error _ => none

/-- The diagnostics on the lines of a text. -/
def ofJsonLines? (text : String) : Option (List Diagnostic) :=
  (text.toList.splitOn '\n').dropLast.mapM ofJsonLine?

theorem ofJsonLine?_compact (d : Diagnostic) :
    ofJsonLine? d.toJson.compact.toList = some d := by
  simp only [ofJsonLine?, String.ofList_toList, Json.parse_compact d.canonical_toJson,
    ofJson?_toJson]

theorem ofJsonLines?_jsonLines (ds : List Diagnostic) : ofJsonLines? (jsonLines ds) = some ds := by
  rw [ofJsonLines?, splitOn_jsonLines, List.dropLast_concat]
  exact Json.mapM_map_eq_some ofJsonLine?_compact ds

/-- The text written for a list of diagnostics has one line for each, in order, and each ends in
the newline that it has. Such a line is read as an object with the keys of a diagnostic and no
other, whose rendered text is the headline, and from which the diagnostic is recovered. So the
list is recovered from the text, and different lists have different texts. -/
theorem jsonLines_roundTrip :
    (∀ ds : List Diagnostic,
      (jsonLines ds).toList.splitOn '\n' = ds.map (fun d => d.toJson.compact.toList) ++ [[]]) ∧
    (∀ d : Diagnostic, ∃ fields : Fields, Json.parse d.toJson.compact = .ok (.object fields) ∧
      fields.map Prod.fst = keys ∧ fields.get? "rendered" = some (.string d.headline) ∧
      ofJson? (.object fields) = some d) ∧
    (∀ ds : List Diagnostic, ofJsonLines? (jsonLines ds) = some ds) ∧
    Function.Injective jsonLines := by
  refine ⟨splitOn_jsonLines, ?_, ofJsonLines?_jsonLines, ?_⟩
  · intro d
    obtain ⟨fields, hfields, hkeys, hrendered⟩ := d.toJson_eq_object
    have hparse := Json.parse_compact d.canonical_toJson
    have hread := d.ofJson?_toJson
    rw [hfields] at hparse hread
    exact ⟨fields, hfields ▸ hparse, hkeys, hrendered, hread⟩
  · intro ds ds' heq
    have hread := ofJsonLines?_jsonLines ds
    rw [heq, ofJsonLines?_jsonLines ds'] at hread
    exact (Option.some.inj hread).symm

end Diagnostic

end TreeScript

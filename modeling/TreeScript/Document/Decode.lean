import TreeScript.Document.Fields
import TreeScript.Json.Reader
import TreeScript.Plan.Total

/-!
From documents to programs. A node is checked in a fixed order: it is an object, its
kind is named by a string, its location if it states one, its kind is known, then the
fields of its kind, each child as soon as its field is reached.
-/
namespace TreeScript.Document

open Json (Fields)

/-- The plan for a node: its requests are its child documents. -/
abbrev NodePlan := Plan LastName Json (Except Fault Term)

structure Header where
  fields : Fields
  tag : String
  location : Location

def header (value : Json) (last : LastName) : Except Fault (Header × LastName) :=
  match value with
  | .object fields => do
    let tag ← stringField fields .term "kind"
    let (location, last) ← ownLocation fields .term last
    return (⟨fields, tag, location⟩, last)
  | _ => .error (.expectedObject .term)

/-- Decode the child in a field, then continue. -/
def child (fields : Fields) (kind : NodeKind) (name : String) (last : LastName)
    (k : Term → LastName → NodePlan) : NodePlan :=
  .require (field fields (.node kind) name) last fun value => .ask value last k

def made (t : Term) (last : LastName) : NodePlan := .answer (.ok t) last

/-- The fields that a kind of node has, after its header. -/
def nodePlan (kind : NodeKind) (fields : Fields) (l : Location) (last : LastName) : NodePlan :=
  match kind with
  | .int =>
    .require (do integer (← field fields (.node .int) "value")) last fun n =>
    made (.int n l) last
  | .str =>
    .require (stringField fields (.node .str) "value") last fun s => made (.str s l) last
  | .bool =>
    .require (boolField fields (.node .bool) "value") last fun b => made (.bool b l) last
  | .binary =>
    .require (operatorField fields) last fun op =>
    child fields .binary "lhs" last fun lhs last =>
    child fields .binary "rhs" last fun rhs last =>
    made (.binary op lhs rhs l) last
  | .print =>
    child fields .print "value" last fun value last => made (.print value l) last
  | .first =>
    child fields .first "value" last fun value last => made (.first value l) last
  | .second =>
    child fields .second "value" last fun value last => made (.second value l) last
  | .conditional =>
    child fields .conditional "condition" last fun condition last =>
    child fields .conditional "then" last fun consequent last =>
    child fields .conditional "otherwise" last fun alternative last =>
    made (.conditional condition consequent alternative l) last
  | .tuple =>
    child fields .tuple "first" last fun left last =>
    child fields .tuple "second" last fun right last =>
    made (.tuple left right l) last
  | .var =>
    .require (stringField fields (.node .var) "text") last fun name => made (.var name l) last
  | .binding =>
    .require (do parameter (← field fields (.node .binding) "name") last) last
      fun (name, last) =>
    child fields .binding "value" last fun value last =>
    child fields .binding "next" last fun next last =>
    made (.binding name value next l) last
  | .function =>
    .require (do parameters [] (← arrayField fields (.node .function) "parameters") last) last
      fun (params, last) =>
    child fields .function "value" last fun body last =>
    made (.function params body l) last
  | .call =>
    child fields .call "callee" last fun callee last =>
    .require (arrayField fields (.node .call) "arguments") last fun values =>
    .askAll values last [] fun arguments last =>
    made (.call callee arguments l) last

def body (value : Json) (last : LastName) : NodePlan :=
  .require (header value last) last fun (h, last) =>
  match NodeKind.ofTag? h.tag with
  | some kind => nodePlan kind h.fields h.location last
  | none => .answer (.error (.unknownKind h.tag)) last

section Total

variable {fields : Fields} {last : LastName}

theorem sizeOf_field {holder : Holder} {name : String} {value : Json}
    (h : field fields holder name = .ok value) : sizeOf value < sizeOf (Json.object fields) := by
  unfold field at h
  split at h
  · rename_i v hv
    cases h
    have := Fields.sizeOf_get? hv
    simp only [Json.object.sizeOf_spec]
    omega
  · cases h

theorem sizeOf_arrayField {holder : Holder} {name : String} {values : List Json}
    (h : arrayField fields holder name = .ok values) :
    ∀ value ∈ values, sizeOf value < sizeOf (Json.object fields) := by
  intro value hvalue
  obtain ⟨v, hv, h⟩ := Checks.bind_eq_ok.mp h
  have hsize := sizeOf_field hv
  split at h
  · cases h
    have := List.sizeOf_lt_of_mem hvalue
    simp only [Json.array.sizeOf_spec] at hsize
    omega
  · cases h

/-- All requests are parts of the object with these fields. -/
abbrev Within (fields : Fields) (plan : NodePlan) : Prop :=
  plan.CallsOnly fun value => sizeOf value < sizeOf (Json.object fields)

theorem within_made (t : Term) : Within fields (made t last) := True.intro

theorem within_child {kind : NodeKind} {name : String} {k : Term → LastName → NodePlan}
    (h : ∀ t last, Within fields (k t last)) : Within fields (child fields kind name last k) :=
  Plan.callsOnly_require fun _ hv => Plan.callsOnly_ask (sizeOf_field hv) h

theorem within_require {β : Type} {e : Except Fault β} {k : β → NodePlan}
    (h : ∀ b, Within fields (k b)) : Within fields (.require e last k) :=
  Plan.callsOnly_require fun b _ => h b

theorem within_nodePlan (kind : NodeKind) (l : Location) :
    Within fields (nodePlan kind fields l last) := by
  cases kind with
  | int | str | bool | var => exact within_require fun _ => within_made _
  | print | first | second => exact within_child fun _ _ => within_made _
  | tuple => exact within_child fun _ _ => within_child fun _ _ => within_made _
  | binary =>
    exact within_require fun _ => within_child fun _ _ => within_child fun _ _ => within_made _
  | conditional =>
    exact within_child fun _ _ => within_child fun _ _ => within_child fun _ _ => within_made _
  | binding =>
    exact within_require fun _ => within_child fun _ _ => within_child fun _ _ => within_made _
  | function => exact within_require fun _ => within_child fun _ _ => within_made _
  | call =>
    refine within_child fun callee last => Plan.callsOnly_require fun values hv => ?_
    exact Plan.callsOnly_askAll (sizeOf_arrayField hv) fun _ _ => within_made _

theorem header_fields {value : Json} {h : Header} {last' : LastName}
    (hh : header value last = .ok (h, last')) : value = .object h.fields := by
  unfold header at hh
  split at hh
  · obtain ⟨tag, _, hh⟩ := Checks.bind_eq_ok.mp hh
    obtain ⟨p, _, hh⟩ := Checks.bind_eq_ok.mp hh
    cases hh
    rfl
  · cases hh

theorem total : Plan.Total body := by
  refine Plan.total_of_measure sizeOf fun value last => ?_
  refine Plan.callsOnly_require fun p hp => ?_
  rw [header_fields hp]
  dsimp only
  split
  · exact within_nodePlan _ _
  · exact True.intro

end Total

/-- The term that a JSON value stands for, or the first fault in it, and the filename
last read. -/
def decodeTerm (value : Json) (last : LastName) : Except Fault Term × LastName :=
  Plan.solve body total value last

def decodeProgram (value : Json) : Except Fault Program :=
  match value with
  | .object fields => do
    let name ← stringField fields .file "name"
    let tree ← field fields .file "expression"
    let (expression, last) := decodeTerm tree none
    let expression ← expression
    match Fields.get? "location" fields with
    | some value => do
      let (l, _) ← location value .file last
      return ⟨name, expression, some l⟩
    | none => return ⟨name, expression, none⟩
  | _ => .error (.expectedObject .file)

/-- The term whose document is a text. -/
def parseTerm (text : String) : Except Error Term :=
  match Json.parse text with
  | .error e => .error (.text e)
  | .ok value => (decodeTerm value none).1.mapError .tree

/-- The program in what a reader of JSON makes of a text. -/
def programOf (reading : Except Json.SyntaxError Json) : Except Error Program :=
  match reading with
  | .error e => .error (.text e)
  | .ok value => (decodeProgram value).mapError .tree

/-- The program whose document is a text. -/
def parseProgram (text : String) : Except Error Program := programOf (Json.parse text)

end TreeScript.Document

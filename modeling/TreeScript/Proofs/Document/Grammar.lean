import Mathlib.Data.List.Forall2
import TreeScript.Document.Fields
import TreeScript.Proofs.Text.Numeral

/-!
The format of documents, as a relation between JSON values and the trees they stand for. Only
the fields that it names matter, in whatever order they stand. Main statement: every tree has a
document.
-/
namespace TreeScript

namespace Document

open Json (Fields)
open Decimal (Numeral SignedNumeral)

/-- What the field for a location says, if it is there. Offsets fit 32 bits. -/
inductive Locates : Option Json → Location → Prop where
  | unstated : Locates none .unstated
  | stated {fields : Fields} {start stop : String} {l : Location} :
      Fields.get? "filename" fields = some (.string l.filename) →
      Fields.get? "start" fields = some (.number start) → Numeral start.toList l.start.toNat →
      Fields.get? "end" fields = some (.number stop) → Numeral stop.toList l.stop.toNat →
      Locates (some (.object fields)) l

inductive RepresentsParameter : Json → Parameter → Prop where
  | object {fields : Fields} {p : Parameter} :
      Fields.get? "text" fields = some (.string p.text) →
      Locates (Fields.get? "location" fields) p.location →
      RepresentsParameter (.object fields) p

/-- What the fields say that every node has. -/
structure IsNode (fields : Fields) (tag : String) (l : Location) : Prop where
  kind : Fields.get? "kind" fields = some (.string tag)
  location : Locates (Fields.get? "location" fields) l

mutual

/-- A JSON value stands for a term. -/
inductive Represents : Json → Term → Prop where
  | int {fields : Fields} {l : Location} {text : String} {n : Int} :
      IsNode fields "Int" l → Fields.get? "value" fields = some (.number text) →
      SignedNumeral text.toList n → Represents (.object fields) (.int n l)
  | str {fields : Fields} {l : Location} {s : String} :
      IsNode fields "Str" l → Fields.get? "value" fields = some (.string s) →
      Represents (.object fields) (.str s l)
  | bool {fields : Fields} {l : Location} {b : Bool} :
      IsNode fields "Bool" l → Fields.get? "value" fields = some (.bool b) →
      Represents (.object fields) (.bool b l)
  | binary {fields : Fields} {l : Location} {op : Operator} {left right : Json} {lhs rhs : Term} :
      IsNode fields "Binary" l → Fields.get? "op" fields = some (.string op.tag) →
      Fields.get? "lhs" fields = some left → Represents left lhs →
      Fields.get? "rhs" fields = some right → Represents right rhs →
      Represents (.object fields) (.binary op lhs rhs l)
  | print {fields : Fields} {l : Location} {value : Json} {printed : Term} :
      IsNode fields "Print" l → Fields.get? "value" fields = some value →
      Represents value printed → Represents (.object fields) (.print printed l)
  | conditional {fields : Fields} {l : Location} {first second third : Json}
      {condition consequent alternative : Term} :
      IsNode fields "If" l → Fields.get? "condition" fields = some first →
      Represents first condition → Fields.get? "then" fields = some second →
      Represents second consequent → Fields.get? "otherwise" fields = some third →
      Represents third alternative →
      Represents (.object fields) (.conditional condition consequent alternative l)
  | first {fields : Fields} {l : Location} {value : Json} {pair : Term} :
      IsNode fields "First" l → Fields.get? "value" fields = some value →
      Represents value pair → Represents (.object fields) (.first pair l)
  | second {fields : Fields} {l : Location} {value : Json} {pair : Term} :
      IsNode fields "Second" l → Fields.get? "value" fields = some value →
      Represents value pair → Represents (.object fields) (.second pair l)
  | tuple {fields : Fields} {l : Location} {first second : Json} {left right : Term} :
      IsNode fields "Tuple" l → Fields.get? "first" fields = some first →
      Represents first left → Fields.get? "second" fields = some second →
      Represents second right → Represents (.object fields) (.tuple left right l)
  | var {fields : Fields} {l : Location} {name : String} :
      IsNode fields "Var" l → Fields.get? "text" fields = some (.string name) →
      Represents (.object fields) (.var name l)
  | binding {fields : Fields} {l : Location} {site value rest : Json} {name : Parameter}
      {bound next : Term} :
      IsNode fields "Let" l → Fields.get? "name" fields = some site →
      RepresentsParameter site name → Fields.get? "value" fields = some value →
      Represents value bound → Fields.get? "next" fields = some rest → Represents rest next →
      Represents (.object fields) (.binding name bound next l)
  | function {fields : Fields} {l : Location} {sites : List Json} {value : Json}
      {parameters : List Parameter} {body : Term} :
      IsNode fields "Function" l → Fields.get? "parameters" fields = some (.array sites) →
      List.Forall₂ RepresentsParameter sites parameters →
      Fields.get? "value" fields = some value → Represents value body →
      Represents (.object fields) (.function parameters body l)
  | call {fields : Fields} {l : Location} {value : Json} {values : List Json} {callee : Term}
      {arguments : List Term} :
      IsNode fields "Call" l → Fields.get? "callee" fields = some value →
      Represents value callee → Fields.get? "arguments" fields = some (.array values) →
      RepresentsAll values arguments → Represents (.object fields) (.call callee arguments l)

/-- JSON values stand for as many terms, one by one. -/
inductive RepresentsAll : List Json → List Term → Prop where
  | nil : RepresentsAll [] []
  | cons {value : Json} {values : List Json} {t : Term} {ts : List Term} :
      Represents value t → RepresentsAll values ts → RepresentsAll (value :: values) (t :: ts)

end

/-- A whole program. The location of its file may be missing. -/
inductive RepresentsProgram : Json → Program → Prop where
  | unlocated {fields : Fields} {name : String} {tree : Json} {expression : Term} :
      Fields.get? "name" fields = some (.string name) →
      Fields.get? "expression" fields = some tree → Represents tree expression →
      Fields.get? "location" fields = none →
      RepresentsProgram (.object fields) ⟨name, expression, none⟩
  | located {fields : Fields} {name : String} {tree place : Json} {expression : Term}
      {l : Location} :
      Fields.get? "name" fields = some (.string name) →
      Fields.get? "expression" fields = some tree → Represents tree expression →
      Fields.get? "location" fields = some place → Locates (some place) l →
      RepresentsProgram (.object fields) ⟨name, expression, some l⟩

end Document

section Encoding

open Json (Fields)

def Location.toJson (l : Location) : Json :=
  .object (Fields.ofList [
    ("filename", .string l.filename),
    ("start", .number (Decimal.ofNat l.start.toNat)),
    ("end", .number (Decimal.ofNat l.stop.toNat))])

def Parameter.toJson (p : Parameter) : Json :=
  .object (Fields.ofList [("text", .string p.text), ("location", p.location.toJson)])

/-- The document of a node, given the fields of its kind. -/
def NodeKind.toJson (kind : NodeKind) (l : Location) (fields : List (String × Json)) : Json :=
  .object (Fields.ofList (("kind", .string kind.tag) :: ("location", l.toJson) :: fields))

namespace Term

mutual

/-- The document of a term. It states every location. -/
def toJson : Term → Json
  | .int n l => NodeKind.int.toJson l [("value", .number (Decimal.ofInt n))]
  | .str s l => NodeKind.str.toJson l [("value", .string s)]
  | .bool b l => NodeKind.bool.toJson l [("value", .bool b)]
  | .binary op lhs rhs l =>
    NodeKind.binary.toJson l [("op", .string op.tag), ("lhs", lhs.toJson), ("rhs", rhs.toJson)]
  | .print value l => NodeKind.print.toJson l [("value", value.toJson)]
  | .conditional condition consequent alternative l =>
    NodeKind.conditional.toJson l [("condition", condition.toJson), ("then", consequent.toJson),
      ("otherwise", alternative.toJson)]
  | .first value l => NodeKind.first.toJson l [("value", value.toJson)]
  | .second value l => NodeKind.second.toJson l [("value", value.toJson)]
  | .tuple left right l =>
    NodeKind.tuple.toJson l [("first", left.toJson), ("second", right.toJson)]
  | .var name l => NodeKind.var.toJson l [("text", .string name)]
  | .binding name value next l =>
    NodeKind.binding.toJson l [("name", name.toJson), ("value", value.toJson),
      ("next", next.toJson)]
  | .function parameters body l =>
    NodeKind.function.toJson l [("parameters", .array (parameters.map Parameter.toJson)),
      ("value", body.toJson)]
  | .call callee arguments l =>
    NodeKind.call.toJson l [("callee", callee.toJson), ("arguments", .array (toJsonAll arguments))]

def toJsonAll : List Term → List Json
  | [] => []
  | t :: ts => t.toJson :: toJsonAll ts

end

end Term

end Encoding

namespace Document

open Json (Fields)
open Decimal (numeral_ofNat signedNumeral_ofInt)

theorem locates_toJson (l : Location) : Locates (some l.toJson) l := by
  refine .stated ?_ ?_ (numeral_ofNat _) ?_ (numeral_ofNat _) <;>
    simp [Fields.ofList]

theorem representsParameter_toJson (p : Parameter) : RepresentsParameter p.toJson p := by
  refine .object ?_ ?_
  · simp [Fields.ofList]
  · simpa [Fields.ofList] using locates_toJson p.location

theorem representsParameters_toJson (ps : List Parameter) :
    List.Forall₂ RepresentsParameter (ps.map Parameter.toJson) ps := by
  rw [List.forall₂_map_left_iff, List.forall₂_same]
  exact fun p _ => representsParameter_toJson p

/-- Fields of other names leave what a field holds as it is. -/
theorem get?_foldl_insert {name : String} {fields : List (String × Json)}
    (hfields : ∀ field ∈ fields, field.1 ≠ name) (first : Fields) :
    Fields.get? name (fields.foldl (fun out field => out.insert field.1 field.2) first) =
      Fields.get? name first := by
  induction fields generalizing first with
  | nil => rfl
  | cons field fields ih =>
    have hne : field.1 ≠ name := hfields field List.mem_cons_self
    have hrest : ∀ other ∈ fields, other.1 ≠ name :=
      fun other hother => hfields other (List.mem_cons_of_mem field hother)
    rw [List.foldl_cons, ih hrest, Fields.get?_insert, if_neg hne]

theorem isNode_toJson (kind : NodeKind) (l : Location) {fields : List (String × Json)}
    (hkind : ∀ field ∈ fields, field.1 ≠ "kind")
    (hlocation : ∀ field ∈ fields, field.1 ≠ "location") :
    IsNode (Fields.ofList (("kind", .string kind.tag) :: ("location", l.toJson) :: fields))
      kind.tag l := by
  constructor
  · simp [Fields.ofList, get?_foldl_insert hkind]
  · simpa [Fields.ofList, get?_foldl_insert hlocation] using locates_toJson l

mutual

theorem represents_toJson (t : Term) : Represents t.toJson t := by
  cases t with
  | int n l =>
    exact .int (isNode_toJson .int l (by simp) (by simp))
      (by simp [Fields.ofList]) (signedNumeral_ofInt n)
  | str s l =>
    exact .str (isNode_toJson .str l (by simp) (by simp))
      (by simp [Fields.ofList])
  | bool b l =>
    exact .bool (isNode_toJson .bool l (by simp) (by simp))
      (by simp [Fields.ofList])
  | binary op lhs rhs l =>
    exact .binary (isNode_toJson .binary l (by simp) (by simp))
      (by simp [Fields.ofList])
      (by simp [Fields.ofList]) (represents_toJson lhs)
      (by simp [Fields.ofList]) (represents_toJson rhs)
  | print value l =>
    exact .print (isNode_toJson .print l (by simp) (by simp))
      (by simp [Fields.ofList]) (represents_toJson value)
  | conditional condition consequent alternative l =>
    exact .conditional (isNode_toJson .conditional l (by simp) (by simp))
      (by simp [Fields.ofList]) (represents_toJson condition)
      (by simp [Fields.ofList]) (represents_toJson consequent)
      (by simp [Fields.ofList]) (represents_toJson alternative)
  | first value l =>
    exact .first (isNode_toJson .first l (by simp) (by simp))
      (by simp [Fields.ofList]) (represents_toJson value)
  | second value l =>
    exact .second (isNode_toJson .second l (by simp) (by simp))
      (by simp [Fields.ofList]) (represents_toJson value)
  | tuple left right l =>
    exact .tuple (isNode_toJson .tuple l (by simp) (by simp))
      (by simp [Fields.ofList]) (represents_toJson left)
      (by simp [Fields.ofList]) (represents_toJson right)
  | var name l =>
    exact .var (isNode_toJson .var l (by simp) (by simp))
      (by simp [Fields.ofList])
  | binding name value next l =>
    exact .binding (isNode_toJson .binding l (by simp) (by simp))
      (by simp [Fields.ofList]) (representsParameter_toJson name)
      (by simp [Fields.ofList]) (represents_toJson value)
      (by simp [Fields.ofList]) (represents_toJson next)
  | function parameters body l =>
    exact .function (isNode_toJson .function l (by simp) (by simp))
      (by simp [Fields.ofList]) (representsParameters_toJson parameters)
      (by simp [Fields.ofList]) (represents_toJson body)
  | call callee arguments l =>
    exact .call (isNode_toJson .call l (by simp) (by simp))
      (by simp [Fields.ofList]) (represents_toJson callee)
      (by simp [Fields.ofList]) (representsAll_toJson arguments)

theorem representsAll_toJson (ts : List Term) : RepresentsAll (Term.toJsonAll ts) ts := by
  cases ts with
  | nil => exact .nil
  | cons t ts => exact .cons (represents_toJson t) (representsAll_toJson ts)

end

end Document

end TreeScript

import TreeScript.Proofs.Document.Fields

/-!
The layout of documents, as data: the fields of each part in their order and what each holds.
From it, all faults of a document in that order. Main statement: these are exactly the faults
that parts of the document have.
-/
namespace TreeScript

namespace Document

open Json (Fields)
open Decimal (Numeral SignedNumeral)

/-- A part of a document that is an object. A location belongs to the part that states it. -/
inductive Part where
  | file | node | parameter
  | location (owner : Holder)

/-- What a field holds that has no parts. -/
inductive Leaf where
  | string | boolean | operator | integer | offset

inductive Slot where
  | leaf (l : Leaf)
  | part (p : Part)
  /-- An array of parts. -/
  | parts (p : Part)

structure Entry where
  name : String
  slot : Slot
  required : Bool

def Entry.leaf (name : String) (l : Leaf) : Entry := ⟨name, .leaf l, true⟩

def Entry.part (name : String) (p : Part) : Entry := ⟨name, .part p, true⟩

def Entry.parts (name : String) (p : Part) : Entry := ⟨name, .parts p, true⟩

def Entry.location (owner : Holder) : Entry := ⟨"location", .part (.location owner), false⟩

/-- Fields in the order in which they are checked. The fields of a kind of node come after those
that all nodes have. -/
def Holder.layout : Holder → List Entry
  | .file => [.leaf "name" .string, .part "expression" .node, .location .file]
  | .term => [.leaf "kind" .string, .location .term]
  | .parameter => [.leaf "text" .string, .location .parameter]
  | .location => [.leaf "filename" .string, .leaf "start" .offset, .leaf "end" .offset]
  | .node .int => [.leaf "value" .integer]
  | .node .str => [.leaf "value" .string]
  | .node .bool => [.leaf "value" .boolean]
  | .node .var => [.leaf "text" .string]
  | .node .print | .node .first | .node .second => [.part "value" .node]
  | .node .tuple => [.part "first" .node, .part "second" .node]
  | .node .binary => [.leaf "op" .operator, .part "lhs" .node, .part "rhs" .node]
  | .node .conditional =>
    [.part "condition" .node, .part "then" .node, .part "otherwise" .node]
  | .node .binding => [.part "name" .parameter, .part "value" .node, .part "next" .node]
  | .node .function => [.parts "parameters" .parameter, .part "value" .node]
  | .node .call => [.part "callee" .node, .parts "arguments" .node]

/-- The holder of the fields that every such part has. -/
def Part.holder : Part → Holder
  | .file => .file
  | .node => .term
  | .parameter => .parameter
  | .location _ => .location

/-- The fault of a value that is no object. -/
def Part.notObject : Part → Fault
  | .location owner => .invalidField owner "location" .object
  | p => .expectedObject p.holder

/-- The fault of a value in a field without parts. -/
def Leaf.fault? (holder : Holder) (name : String) : Leaf → Json → Option Fault
  | .string, .string _ => none
  | .boolean, .bool _ => none
  | .operator, .string tag =>
    if (Operator.ofTag? tag).isSome then none else some (.unknownOperator tag)
  | .integer, .number text =>
    if (Decimal.int? text.toList).isSome then none else some (.invalidInteger text)
  | .integer, value => some (.invalidInteger value.compact)
  | .offset, value =>
    if (offset? value).isSome then none else some (.invalidField holder name .offset)
  | .boolean, _ => some (.invalidField holder name .boolean)
  | .string, _ | .operator, _ => some (.invalidField holder name .string)

mutual

/-- All faults of a part, in the order of its fields. A node of unknown kind has no fields but
those of all nodes. -/
def faults (p : Part) (value : Json) : List Fault :=
  match value with
  | .object fields => fieldFaults p.holder fields p.holder.layout ++ kindFaults p fields
  | _ => [p.notObject]
termination_by (sizeOf value, 0, 0)

def kindFaults (p : Part) (fields : Fields) : List Fault :=
  match p, Fields.get? "kind" fields with
  | .node, some (.string tag) =>
    match NodeKind.ofTag? tag with
    | some kind => fieldFaults (.node kind) fields (Holder.node kind).layout
    | none => [.unknownKind tag]
  | _, _ => []
termination_by (sizeOf fields, 2, 0)

def fieldFaults (holder : Holder) (fields : Fields) (entries : List Entry) : List Fault :=
  match entries with
  | [] => []
  | entry :: rest => entryFaults holder fields entry ++ fieldFaults holder fields rest
termination_by (sizeOf fields, 1, entries.length)

def entryFaults (holder : Holder) (fields : Fields) (entry : Entry) : List Fault :=
  match _h : Fields.get? entry.name fields with
  | some value => slotFaults holder entry.name entry.slot value
  | none => if entry.required then [.missingField holder entry.name] else []
termination_by (sizeOf fields, 0, 0)
decreasing_by
  have := Fields.sizeOf_get? _h
  exact Prod.Lex.left _ _ this

def slotFaults (holder : Holder) (name : String) (slot : Slot) (value : Json) : List Fault :=
  match slot, value with
  | .leaf l, value => (l.fault? holder name value).toList
  | .part p, value => faults p value
  | .parts p, .array values => faultsAll p values
  | .parts _, _ => [.invalidField holder name .array]
termination_by (sizeOf value, 1, 0)

def faultsAll (p : Part) (values : List Json) : List Fault :=
  match values with
  | [] => []
  | value :: rest => faults p value ++ faultsAll p rest
termination_by (sizeOf values, 0, 0)

end

/-- The fields of an object of this part are laid out as the fields of the holder. -/
inductive Governs : Part → Fields → Holder → Prop where
  | all {p : Part} {fields : Fields} : Governs p fields p.holder
  | kind {fields : Fields} {kind : NodeKind} :
      Fields.get? "kind" fields = some (.string kind.tag) → Governs .node fields (.node kind)

/-- The field of the entry holds the value. -/
structure Stands (p : Part) (fields : Fields) (holder : Holder) (entry : Entry) (value : Json) :
    Prop where
  governs : Governs p fields holder
  listed : entry ∈ holder.layout
  held : Fields.get? entry.name fields = some value

/-- From a part, by way of the fields that hold parts, to another. -/
inductive Reaches : Part → Json → Part → Json → Prop where
  | here {p : Part} {value : Json} : Reaches p value p value
  | field {p q r : Part} {fields : Fields} {holder : Holder} {entry : Entry} {value other : Json} :
      Stands p fields holder entry value → entry.slot = .part q → Reaches q value r other →
      Reaches p (.object fields) r other
  | item {p q r : Part} {fields : Fields} {holder : Holder} {entry : Entry} {values : List Json}
      {value other : Json} :
      Stands p fields holder entry (.array values) → entry.slot = .parts q → value ∈ values →
      Reaches q value r other → Reaches p (.object fields) r other

/-- The value in a field without parts is wrong in its shape, or is of the right shape and names
no operator, no integer or no offset. -/
inductive Leaf.Rejects (holder : Holder) (name : String) : Leaf → Json → Fault → Prop where
  | string {value : Json} : (∀ s, value ≠ .string s) →
      Rejects holder name .string value (.invalidField holder name .string)
  | boolean {value : Json} : (∀ b, value ≠ .bool b) →
      Rejects holder name .boolean value (.invalidField holder name .boolean)
  | noTag {value : Json} : (∀ s, value ≠ .string s) →
      Rejects holder name .operator value (.invalidField holder name .string)
  | operator {tag : String} : (∀ op : Operator, op.tag ≠ tag) →
      Rejects holder name .operator (.string tag) (.unknownOperator tag)
  | integer {value : Json} : (∀ text n, value = .number text → ¬ SignedNumeral text.toList n) →
      Rejects holder name .integer value (.invalidInteger value.compact)
  | offset {value : Json} :
      (∀ text n, value = .number text → Numeral text.toList n → 4294967295 < n) →
      Rejects holder name .offset value (.invalidField holder name .offset)

/-- The part itself has the fault, whatever its parts have. -/
inductive Exhibits : Part → Json → Fault → Prop where
  | notObject {p : Part} {value : Json} : (∀ fields, value ≠ .object fields) →
      Exhibits p value p.notObject
  | missing {p : Part} {fields : Fields} {holder : Holder} {entry : Entry} :
      Governs p fields holder → entry ∈ holder.layout → entry.required = true →
      Fields.get? entry.name fields = none →
      Exhibits p (.object fields) (.missingField holder entry.name)
  | leaf {p : Part} {fields : Fields} {holder : Holder} {entry : Entry} {l : Leaf} {value : Json}
      {e : Fault} :
      Stands p fields holder entry value → entry.slot = .leaf l →
      l.Rejects holder entry.name value e → Exhibits p (.object fields) e
  | notArray {p q : Part} {fields : Fields} {holder : Holder} {entry : Entry} {value : Json} :
      Stands p fields holder entry value → entry.slot = .parts q →
      (∀ values, value ≠ .array values) →
      Exhibits p (.object fields) (.invalidField holder entry.name .array)
  | unknownKind {fields : Fields} {tag : String} :
      Fields.get? "kind" fields = some (.string tag) → (∀ kind : NodeKind, kind.tag ≠ tag) →
      Exhibits .node (.object fields) (.unknownKind tag)

/-- A part that is reached has the fault. -/
def Present (p : Part) (value : Json) (e : Fault) : Prop :=
  ∃ q other, Reaches p value q other ∧ Exhibits q other e

theorem ofTag?_eq_none_iff {tag : String} :
    NodeKind.ofTag? tag = none ↔ ∀ kind : NodeKind, kind.tag ≠ tag := by
  simp [NodeKind.ofTag?, NodeKind.mem_all]

theorem operatorOfTag?_eq_none_iff {tag : String} :
    Operator.ofTag? tag = none ↔ ∀ op : Operator, op.tag ≠ tag := by
  simp [Operator.ofTag?, Operator.mem_all]

@[simp] theorem compact_number (text : String) : (Json.number text).compact = text := by
  simp [Json.compact, Json.write, Json.Pending.front]

theorem offset?_eq_none_iff {value : Json} :
    offset? value = none ↔
      ∀ text n, value = .number text → Numeral text.toList n → 4294967295 < n := by
  constructor
  · rintro h text n rfl hn
    by_contra hle
    have hlt : n < UInt32.size := Nat.lt_succ_of_le (Nat.not_lt.mp hle)
    simp [offset?, Decimal.nat?_eq_some_iff.mpr hn, hlt] at h
  · intro h
    cases hv : offset? value with
    | none => rfl
    | some m =>
      obtain ⟨text, rfl, hm⟩ := offset?_eq_some_iff.mp hv
      have hlarge := h text m.toNat rfl hm
      have hsmall := m.toNat_lt_size
      exact absurd hlarge (Nat.not_lt.mpr (Nat.le_of_lt_succ hsmall))

theorem fault?_eq_some_iff {holder : Holder} {name : String} {l : Leaf} {value : Json} {e : Fault} :
    l.fault? holder name value = some e ↔ l.Rejects holder name value e := by
  constructor
  · intro h
    unfold Leaf.fault? at h
    split at h
    · cases h
    · cases h
    · split at h
      · cases h
      · rename_i htag
        cases h
        exact .operator (operatorOfTag?_eq_none_iff.mp (by simpa using htag))
    · split at h
      · cases h
      · rename_i text htext
        cases h
        have hnone : ∀ text' n, Json.number text = .number text' →
            ¬ SignedNumeral text'.toList n := by
          rintro _ n ⟨⟩ hn
          exact htext (by rw [Decimal.int?_eq_some_iff.mpr hn]; rfl)
        have hrejects : Leaf.Rejects holder name .integer (.number text)
            (.invalidInteger (Json.number text).compact) := .integer hnone
        rwa [compact_number] at hrejects
    · rename_i hnumber
      cases h
      exact .integer fun text n hv => absurd hv (hnumber text)
    · split at h
      · cases h
      · rename_i hoffset
        cases h
        exact .offset (offset?_eq_none_iff.mp (by simpa using hoffset))
    · rename_i hbool
      cases h
      exact .boolean hbool
    · rename_i hstring
      cases h
      exact .string hstring
    · rename_i hstring
      cases h
      exact .noTag hstring
  · intro h
    cases h with
    | string h | boolean h | noTag h =>
      cases value <;> first | rfl | exact absurd rfl (h _)
    | operator htag =>
      simp [Leaf.fault?, operatorOfTag?_eq_none_iff.mpr htag]
    | integer h =>
      cases value with
      | number text =>
        cases hn : Decimal.int? text.toList with
        | some n => exact absurd (Decimal.int?_eq_some_iff.mp hn) (h text n rfl)
        | none => simp [Leaf.fault?, hn]
      | _ => rfl
    | offset h => simp [Leaf.fault?, offset?_eq_none_iff.mpr h]

section Membership
variable {p q : Part} {fields : Fields} {holder : Holder} {entry : Entry} {value : Json}
  {e : Fault}

theorem mem_fieldFaults {entries : List Entry} :
    e ∈ fieldFaults holder fields entries ↔
      ∃ entry ∈ entries, e ∈ entryFaults holder fields entry := by
  induction entries with
  | nil => simp [fieldFaults]
  | cons entry rest ih => simp [fieldFaults, ih]

theorem mem_faultsAll {values : List Json} :
    e ∈ faultsAll p values ↔ ∃ value ∈ values, e ∈ faults p value := by
  induction values with
  | nil => simp [faultsAll]
  | cons value rest ih => simp [faultsAll, ih]

theorem entryFaults_of_some (h : Fields.get? entry.name fields = some value) :
    entryFaults holder fields entry = slotFaults holder entry.name entry.slot value := by
  rw [entryFaults]
  split
  · rename_i other hother
    cases hother.symm.trans h
    rfl
  · rename_i hnone
    cases hnone.symm.trans h

theorem entryFaults_of_none (h : Fields.get? entry.name fields = none) :
    entryFaults holder fields entry =
      if entry.required then [.missingField holder entry.name] else [] := by
  rw [entryFaults]
  split
  · rename_i other hother
    cases hother.symm.trans h
  · rfl

theorem mem_kindFaults {entry : Entry} {kind : NodeKind}
    (hkind : Fields.get? "kind" fields = some (.string kind.tag))
    (hentry : entry ∈ (Holder.node kind).layout)
    (he : e ∈ entryFaults (.node kind) fields entry) : e ∈ kindFaults .node fields := by
  unfold kindFaults
  simp only [hkind, NodeKind.ofTag?_tag]
  exact mem_fieldFaults.mpr ⟨entry, hentry, he⟩

theorem kindFaults_of_unknown {tag : String}
    (htag : Fields.get? "kind" fields = some (.string tag))
    (hunknown : ∀ kind : NodeKind, kind.tag ≠ tag) :
    kindFaults .node fields = [.unknownKind tag] := by
  unfold kindFaults
  simp only [htag, ofTag?_eq_none_iff.mpr hunknown]

theorem faults_object_of_ne_node (hp : p ≠ .node) :
    faults p (.object fields) = fieldFaults p.holder fields p.holder.layout := by
  have hkind : kindFaults p fields = [] := by
    unfold kindFaults
    split
    · exact absurd rfl hp
    · rfl
  rw [faults, hkind, List.append_nil]

/-- An object has the faults of all its fields, and that of its kind if it names an unknown one. -/
theorem mem_faults_object :
    e ∈ faults p (.object fields) ↔
      (∃ holder, Governs p fields holder ∧ ∃ entry ∈ holder.layout,
        e ∈ entryFaults holder fields entry) ∨
      ∃ tag, p = .node ∧ Fields.get? "kind" fields = some (.string tag) ∧
        (∀ kind : NodeKind, kind.tag ≠ tag) ∧ e = .unknownKind tag := by
  rw [faults, List.mem_append, mem_fieldFaults]
  constructor
  · rintro (h | h)
    · exact .inl ⟨p.holder, .all, h⟩
    · unfold kindFaults at h
      split at h
      · rename_i tag htag
        split at h
        · rename_i kind hkind
          rw [← NodeKind.tag_of_ofTag? hkind] at htag
          exact .inl ⟨.node kind, .kind htag, mem_fieldFaults.mp h⟩
        · rename_i hkind
          exact .inr ⟨tag, rfl, htag, ofTag?_eq_none_iff.mp hkind, List.mem_singleton.mp h⟩
      · cases h
  · rintro (⟨holder, hgoverns, entry, hentry, he⟩ | ⟨tag, rfl, htag, hunknown, rfl⟩)
    · cases hgoverns with
      | all => exact .inl ⟨entry, hentry, he⟩
      | kind hkind => exact .inr (mem_kindFaults hkind hentry he)
    · rw [kindFaults_of_unknown htag hunknown]
      exact .inr (List.mem_singleton_self _)

theorem mem_faults_of_entry (hgoverns : Governs p fields holder) (hentry : entry ∈ holder.layout)
    (he : e ∈ entryFaults holder fields entry) : e ∈ faults p (.object fields) :=
  mem_faults_object.mpr (.inl ⟨holder, hgoverns, entry, hentry, he⟩)

theorem Stands.mem_faults (h : Stands p fields holder entry value)
    (he : e ∈ slotFaults holder entry.name entry.slot value) : e ∈ faults p (.object fields) := by
  refine mem_faults_of_entry h.governs h.listed ?_
  rwa [entryFaults_of_some h.held]

theorem faults_of_notObject (h : ∀ fields, value ≠ .object fields) :
    faults p value = [p.notObject] := by
  cases value with
  | object fields => exact absurd rfl (h fields)
  | _ => exact faults.eq_2 p _ h

/-- A part lists its own faults. -/
theorem Exhibits.mem_faults (h : Exhibits p value e) : e ∈ faults p value := by
  cases h with
  | notObject h =>
    rw [faults_of_notObject h]
    exact List.mem_singleton_self _
  | missing hgoverns hentry hrequired hnone =>
    refine mem_faults_of_entry hgoverns hentry ?_
    rw [entryFaults_of_none hnone, if_pos hrequired]
    exact List.mem_singleton_self _
  | leaf hstands hslot hrejects =>
    refine hstands.mem_faults ?_
    rw [hslot, slotFaults, fault?_eq_some_iff.mpr hrejects]
    exact List.mem_singleton_self _
  | @notArray _ q _ _ _ value hstands hslot hvalues =>
    refine hstands.mem_faults ?_
    rw [hslot]
    cases value with
    | array values => exact absurd rfl (hvalues values)
    | _ =>
      rw [slotFaults]
      · exact List.mem_singleton_self _
      · rintro _ ⟨⟩
  | unknownKind htag hunknown =>
    exact mem_faults_object.mpr (.inr ⟨_, rfl, htag, hunknown, rfl⟩)

/-- A part lists the faults of all the parts that it reaches. -/
theorem Reaches.mem_faults {other : Json} (h : Reaches p value q other) (he : e ∈ faults q other) :
    e ∈ faults p value := by
  induction h with
  | here => exact he
  | field hstands hslot _ ih =>
    refine hstands.mem_faults ?_
    rw [hslot, slotFaults]
    exact ih he
  | item hstands hslot hvalue _ ih =>
    refine hstands.mem_faults ?_
    rw [hslot, slotFaults]
    exact mem_faultsAll.mpr ⟨_, hvalue, ih he⟩

end Membership

theorem Present.of_exhibits {p : Part} {value : Json} {e : Fault} (h : Exhibits p value e) :
    Present p value e := ⟨p, value, .here, h⟩

/-- A fault of a field is one of the part or of a part in the field, if all smaller values list
only faults that they have. -/
theorem present_of_mem_entryFaults {p : Part} {fields : Fields} {holder : Holder} {entry : Entry}
    {e : Fault} (hgoverns : Governs p fields holder) (hentry : entry ∈ holder.layout)
    (he : e ∈ entryFaults holder fields entry)
    (hsmaller : ∀ value, sizeOf value < sizeOf fields → ∀ q, e ∈ faults q value →
      Present q value e) : Present p (.object fields) e := by
  cases hheld : Fields.get? entry.name fields with
  | none =>
    rw [entryFaults_of_none hheld] at he
    split at he
    · rename_i hrequired
      cases List.mem_singleton.mp he
      exact .of_exhibits (.missing hgoverns hentry hrequired hheld)
    · cases he
  | some value =>
    have hstands : Stands p fields holder entry value := ⟨hgoverns, hentry, hheld⟩
    have hsize : sizeOf value < sizeOf fields := Fields.sizeOf_get? hheld
    rw [entryFaults_of_some hheld] at he
    cases hslot : entry.slot with
    | leaf l =>
      rw [hslot, slotFaults, Option.mem_toList] at he
      exact .of_exhibits (.leaf hstands hslot (fault?_eq_some_iff.mp he))
    | part q =>
      rw [hslot, slotFaults] at he
      obtain ⟨r, other, hreaches, hexhibits⟩ := hsmaller value hsize q he
      exact ⟨r, other, .field hstands hslot hreaches, hexhibits⟩
    | parts q =>
      rw [hslot] at he
      cases value with
      | array values =>
        rw [slotFaults] at he
        obtain ⟨value, hvalue, he⟩ := mem_faultsAll.mp he
        have hitem : sizeOf value < sizeOf fields := by
          have := List.sizeOf_lt_of_mem hvalue
          simp only [Json.array.sizeOf_spec] at hsize
          omega
        obtain ⟨r, other, hreaches, hexhibits⟩ := hsmaller value hitem q he
        exact ⟨r, other, .item hstands hslot hvalue hreaches, hexhibits⟩
      | _ =>
        rw [slotFaults] at he
        · cases List.mem_singleton.mp he
          exact .of_exhibits (.notArray hstands hslot (by rintro _ ⟨⟩))
        · rintro _ ⟨⟩

/-- What a part lists is a fault of it or of a part that it reaches. -/
theorem present_of_mem_faults {p : Part} {value : Json} {e : Fault} (h : e ∈ faults p value) :
    Present p value e := by
  induction hn : sizeOf value using Nat.strongRecOn generalizing p value with
  | ind n ih =>
    cases value with
    | object fields =>
      rcases mem_faults_object.mp h with
        ⟨holder, hgoverns, entry, hentry, he⟩ | ⟨tag, rfl, htag, hunknown, rfl⟩
      · refine present_of_mem_entryFaults hgoverns hentry he fun value hsize q hq => ?_
        refine ih (sizeOf value) ?_ hq rfl
        simp only [Json.object.sizeOf_spec] at hn
        omega
      · exact .of_exhibits (.unknownKind htag hunknown)
    | _ =>
      rw [faults_of_notObject (by rintro _ ⟨⟩)] at h
      cases List.mem_singleton.mp h
      exact .of_exhibits (.notObject (by rintro _ ⟨⟩))

/-- The faults listed are the faults there are. -/
theorem mem_faults_iff {p : Part} {value : Json} {e : Fault} :
    e ∈ faults p value ↔ Present p value e := by
  constructor
  · exact present_of_mem_faults
  · rintro ⟨q, other, hreaches, hexhibits⟩
    exact hreaches.mem_faults hexhibits.mem_faults

end Document

end TreeScript

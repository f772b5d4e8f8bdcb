import TreeScript.Document.Decode
import TreeScript.Proofs.Document.Grammar

/-!
When the checks of a document succeed, and with what: one equivalence for each, from single
fields up to the header of a node.
-/
namespace TreeScript

namespace Document

open Json (Fields)
open Decimal (Numeral SignedNumeral)

variable {fields : Fields} {holder : Holder} {name : String} {last next : LastName}

theorem field_eq_ok_iff {value : Json} :
    field fields holder name = .ok value ↔ Fields.get? name fields = some value := by
  unfold field
  cases Fields.get? name fields <;> simp

/-- A field with a check that succeeds on values of one shape. -/
theorem bind_field_eq_ok_iff {β : Type} {check : Json → Except Fault β} {shape : β → Json} {b : β}
    (hcheck : ∀ value, check value = .ok b ↔ value = shape b) :
    (field fields holder name >>= check) = .ok b ↔ Fields.get? name fields = some (shape b) := by
  simp only [Checks.bind_eq_ok, field_eq_ok_iff, hcheck, exists_eq_right]

theorem stringField_eq_ok_iff {s : String} :
    stringField fields holder name = .ok s ↔ Fields.get? name fields = some (.string s) := by
  apply bind_field_eq_ok_iff
  intro value
  cases value <;> simp

theorem boolField_eq_ok_iff {b : Bool} :
    boolField fields holder name = .ok b ↔ Fields.get? name fields = some (.bool b) := by
  apply bind_field_eq_ok_iff
  intro value
  cases value <;> simp

theorem arrayField_eq_ok_iff {values : List Json} :
    arrayField fields holder name = .ok values ↔
      Fields.get? name fields = some (.array values) := by
  apply bind_field_eq_ok_iff
  intro value
  cases value <;> simp

theorem operatorField_eq_ok_iff {op : Operator} :
    operatorField fields = .ok op ↔ Fields.get? "op" fields = some (.string op.tag) := by
  simp only [operatorField, Checks.bind_eq_ok, stringField_eq_ok_iff]
  constructor
  · rintro ⟨tag, htag, h⟩
    split at h
    · rename_i op' hop
      cases h
      rw [Operator.tag_of_ofTag? hop]
      exact htag
    · cases h
  · intro h
    exact ⟨_, h, by rw [Operator.ofTag?_tag]; rfl⟩

theorem integer_eq_ok_iff {value : Json} {n : Int} :
    integer value = .ok n ↔ ∃ text, value = .number text ∧ SignedNumeral text.toList n := by
  constructor
  · intro h
    unfold integer at h
    split at h
    · split at h
      · rename_i m hm
        cases h
        exact ⟨_, rfl, Decimal.int?_eq_some_iff.mp hm⟩
      · cases h
    · cases h
  · rintro ⟨text, rfl, h⟩
    simp [integer, Decimal.int?_eq_some_iff.mpr h]

/-- What fits 32 bits is read as it is. -/
theorem offset?_eq_some_iff {value : Json} {n : UInt32} :
    offset? value = some n ↔ ∃ text, value = .number text ∧ Numeral text.toList n.toNat := by
  constructor
  · intro h
    unfold offset? at h
    split at h
    · split at h
      · rename_i m hm
        split at h
        · rename_i hlt
          cases h
          refine ⟨_, rfl, ?_⟩
          rw [UInt32.toNat_ofNat_of_lt' hlt]
          exact Decimal.nat?_eq_some_iff.mp hm
        · cases h
      · cases h
    · cases h
  · rintro ⟨text, rfl, h⟩
    have hlt : n.toNat < UInt32.size := n.toNat_lt_size
    simp [offset?, Decimal.nat?_eq_some_iff.mpr h, hlt]

theorem offsetField_eq_ok_iff {n : UInt32} :
    offsetField fields name = .ok n ↔
      ∃ text, Fields.get? name fields = some (.number text) ∧ Numeral text.toList n.toNat := by
  simp only [offsetField, Checks.bind_eq_ok, field_eq_ok_iff]
  constructor
  · rintro ⟨value, hvalue, h⟩
    split at h
    · rename_i m hm
      cases h
      obtain ⟨text, rfl, hn⟩ := offset?_eq_some_iff.mp hm
      exact ⟨text, hvalue, hn⟩
    · cases h
  · rintro ⟨text, hvalue, hn⟩
    exact ⟨_, hvalue, by rw [offset?_eq_some_iff.mpr ⟨text, rfl, hn⟩]; rfl⟩

/-- What is remembered after a location is the name in it, whatever was remembered before. -/
theorem location_eq_ok_iff {value : Json} {l : Location} :
    location value holder last = .ok (l, next) ↔
      Locates (some value) l ∧ next = some l.filename := by
  constructor
  · intro h
    unfold location at h
    split at h
    · simp only [Checks.bind_eq_ok, stringField_eq_ok_iff, offsetField_eq_ok_iff, shared_eq] at h
      obtain ⟨name, hname, start, ⟨_, hstart, hn⟩, stop, ⟨_, hstop, hm⟩, h⟩ := h
      cases h
      exact ⟨.stated hname hstart hn hstop hm, rfl⟩
    · cases h
  · rintro ⟨h, rfl⟩
    cases h with
    | stated hname hstart hn hstop hm =>
      simp only [location, Checks.bind_eq_ok, stringField_eq_ok_iff, offsetField_eq_ok_iff,
        shared_eq]
      exact ⟨_, hname, _, ⟨_, hstart, hn⟩, _, ⟨_, hstop, hm⟩, rfl⟩

theorem ownLocation_eq_ok_iff {l : Location} :
    (∃ next, ownLocation fields holder last = .ok (l, next)) ↔
      Locates (Fields.get? "location" fields) l := by
  unfold ownLocation
  cases Fields.get? "location" fields with
  | some value => simp [location_eq_ok_iff]
  | none =>
    constructor
    · rintro ⟨next, ⟨⟩⟩
      exact .unstated
    · rintro ⟨⟩
      exact ⟨last, rfl⟩

theorem parameter_eq_ok_iff {value : Json} {p : Parameter} :
    (∃ next, parameter value last = .ok (p, next)) ↔ RepresentsParameter value p := by
  constructor
  · rintro ⟨next, h⟩
    unfold parameter at h
    split at h
    · simp only [Checks.bind_eq_ok, stringField_eq_ok_iff] at h
      obtain ⟨text, htext, ⟨l, next'⟩, hl, h⟩ := h
      cases h
      exact .object htext (ownLocation_eq_ok_iff.mp ⟨_, hl⟩)
    · cases h
  · rintro ⟨htext, hl⟩
    have hown : ∃ next, ownLocation _ .parameter last = .ok (p.location, next) :=
      ownLocation_eq_ok_iff.mpr hl
    obtain ⟨next, hl⟩ := hown
    simp only [parameter, Checks.bind_eq_ok, stringField_eq_ok_iff]
    exact ⟨next, _, htext, _, hl, rfl⟩

theorem parameters_eq_ok_iff {before ps : List Parameter} {values : List Json} :
    (∃ next, parameters before values last = .ok (ps, next)) ↔
      ∃ qs, List.Forall₂ RepresentsParameter values qs ∧ ps = before.reverse ++ qs := by
  induction values generalizing before last with
  | nil =>
    constructor
    · rintro ⟨next, ⟨⟩⟩
      exact ⟨[], .nil, (List.append_nil _).symm⟩
    · rintro ⟨qs, ⟨⟩, rfl⟩
      exact ⟨last, by rw [List.append_nil]; rfl⟩
  | cons value values ih =>
    constructor
    · rintro ⟨next, h⟩
      simp only [parameters, Checks.bind_eq_ok] at h
      obtain ⟨⟨p, last'⟩, hp, h⟩ := h
      obtain ⟨qs, hqs, rfl⟩ := ih.mp ⟨next, h⟩
      exact ⟨p :: qs, .cons (parameter_eq_ok_iff.mp ⟨_, hp⟩) hqs, by simp⟩
    · rintro ⟨_, hqs, rfl⟩
      cases hqs with
      | @cons _ p _ qs hp hqs =>
        have hfirst : ∃ last', parameter value last = .ok (p, last') := parameter_eq_ok_iff.mpr hp
        obtain ⟨last', hp⟩ := hfirst
        have hrest : ∃ next, parameters (p :: before) values last' =
            .ok (before.reverse ++ p :: qs, next) := ih.mpr ⟨qs, hqs, by simp⟩
        obtain ⟨next, hrest⟩ := hrest
        refine ⟨next, ?_⟩
        simp only [parameters, Checks.bind_eq_ok]
        exact ⟨_, hp, hrest⟩

theorem header_eq_ok_iff {value : Json} {h : Header} :
    (∃ next, header value last = .ok (h, next)) ↔
      value = .object h.fields ∧ IsNode h.fields h.tag h.location := by
  constructor
  · rintro ⟨next, hh⟩
    unfold header at hh
    split at hh
    · simp only [Checks.bind_eq_ok, stringField_eq_ok_iff] at hh
      obtain ⟨tag, htag, ⟨l, next'⟩, hl, hh⟩ := hh
      cases hh
      exact ⟨rfl, htag, ownLocation_eq_ok_iff.mp ⟨_, hl⟩⟩
    · cases hh
  · rintro ⟨rfl, htag, hl⟩
    have hown : ∃ next, ownLocation h.fields .term last = .ok (h.location, next) :=
      ownLocation_eq_ok_iff.mpr hl
    obtain ⟨next, hl⟩ := hown
    simp only [header, Checks.bind_eq_ok, stringField_eq_ok_iff]
    exact ⟨next, _, htag, _, hl, rfl⟩

end Document

end TreeScript

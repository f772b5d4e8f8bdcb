import TreeScript.Proofs.Document.Decoding
import TreeScript.Proofs.Json.RoundTrip

/-!
The text of a program's document. Main statement: parsing it gives the program.
-/
namespace TreeScript

open Json (Canonical Fields)

theorem Location.canonical_toJson (l : Location) : Canonical l.toJson := by
  apply Canonical.ofList
  simpa [Json.numberName] using ⟨.string _, .number l.start.toNat, .number l.stop.toNat⟩

theorem Parameter.canonical_toJson (p : Parameter) : Canonical p.toJson := by
  apply Canonical.ofList
  simpa [Json.numberName] using ⟨.string _, p.location.canonical_toJson⟩

theorem NodeKind.canonical_toJson (kind : NodeKind) (l : Location)
    {fields : List (String × Json)} (h : ∀ f ∈ fields, f.1 ≠ Json.numberName ∧ Canonical f.2) :
    Canonical (kind.toJson l fields) := by
  apply Canonical.ofList
  simp only [List.forall_mem_cons]
  exact ⟨⟨by simp [Json.numberName], .string _⟩,
    ⟨by simp [Json.numberName], l.canonical_toJson⟩, h⟩

namespace Term

mutual

theorem canonical_toJson (t : Term) : Canonical t.toJson := by
  cases t with
  | int n l =>
    exact NodeKind.canonical_toJson _ l (by simpa [Json.numberName] using .number n)
  | str s l =>
    exact NodeKind.canonical_toJson _ l (by simpa [Json.numberName] using .string s)
  | bool b l =>
    exact NodeKind.canonical_toJson _ l (by simpa [Json.numberName] using .bool b)
  | var name l =>
    exact NodeKind.canonical_toJson _ l (by simpa [Json.numberName] using .string name)
  | print value l | first value l | second value l =>
    exact NodeKind.canonical_toJson _ l (by simpa [Json.numberName] using canonical_toJson value)
  | tuple left right l =>
    exact NodeKind.canonical_toJson _ l
      (by simpa [Json.numberName] using ⟨canonical_toJson left, canonical_toJson right⟩)
  | binary op lhs rhs l =>
    exact NodeKind.canonical_toJson _ l
      (by simpa [Json.numberName] using ⟨.string _, canonical_toJson lhs, canonical_toJson rhs⟩)
  | conditional condition consequent alternative l =>
    exact NodeKind.canonical_toJson _ l
      (by simpa [Json.numberName] using ⟨canonical_toJson condition, canonical_toJson consequent,
        canonical_toJson alternative⟩)
  | binding name value next l =>
    exact NodeKind.canonical_toJson _ l
      (by simpa [Json.numberName] using
        ⟨name.canonical_toJson, canonical_toJson value, canonical_toJson next⟩)
  | function parameters body l =>
    have hparameters : Canonical (.array (parameters.map Parameter.toJson)) :=
      .array (List.forall_mem_map.mpr fun p _ => p.canonical_toJson)
    exact NodeKind.canonical_toJson _ l
      (by simpa [Json.numberName] using ⟨hparameters, canonical_toJson body⟩)
  | call callee arguments l =>
    exact NodeKind.canonical_toJson _ l
      (by simpa [Json.numberName] using
        ⟨canonical_toJson callee, .array (canonical_toJsonAll arguments)⟩)

theorem canonical_toJsonAll (ts : List Term) : ∀ v ∈ toJsonAll ts, Canonical v := by
  cases ts with
  | nil => exact List.forall_mem_nil _
  | cons t ts => exact List.forall_mem_cons.mpr ⟨canonical_toJson t, canonical_toJsonAll ts⟩

end

end Term

/-- The document of a program. It states a location if the program has one. -/
def Program.toJson (p : Program) : Json :=
  .object (Fields.ofList (("name", .string p.name) :: ("expression", p.expression.toJson) ::
    (p.location.map fun l => ("location", l.toJson)).toList))

theorem Program.canonical_toJson (p : Program) : Canonical p.toJson := by
  apply Canonical.ofList
  simp only [List.forall_mem_cons]
  refine ⟨⟨by simp [Json.numberName], .string _⟩,
    ⟨by simp [Json.numberName], p.expression.canonical_toJson⟩, ?_⟩
  intro f hf
  obtain ⟨l, -, rfl⟩ := Option.map_eq_some_iff.mp (Option.mem_toList.mp hf)
  exact ⟨by simp [Json.numberName], l.canonical_toJson⟩

namespace Document

theorem representsProgram_toJson (p : Program) : RepresentsProgram p.toJson p := by
  obtain ⟨name, expression, place⟩ := p
  cases place with
  | none =>
    exact .unlocated (by simp [Fields.ofList]) (by simp [Fields.ofList])
      (represents_toJson expression) (by simp [Fields.ofList, Fields.get?])
  | some l =>
    exact .located (by simp [Fields.ofList]) (by simp [Fields.ofList])
      (represents_toJson expression) (by simp [Fields.ofList]) (locates_toJson l)

/-- A program is parsed again from the text of its document. -/
theorem parseProgram_compact_toJson (p : Program) : parseProgram p.toJson.compact = .ok p := by
  have hparse := Json.parse_compact p.canonical_toJson
  have hdecode := decodeProgram_eq_ok_iff.mpr (representsProgram_toJson p)
  simp only [parseProgram, programOf, hparse, hdecode]
  rfl

end Document

end TreeScript

import Mathlib
import TreeScript.Proofs.Operation.Laws
import TreeScript.Proofs.Value.Related

/-!
The two equalities of values. A host compares tuples by their parts and closures by identity; the
language compares integers, texts and truth values and nothing else. Main statement: the first is
an equivalence that no text, kind or condition can tell from equality, and the second is what is
left of it without tuples and closures.
-/
namespace TreeScript

namespace Value
variable {a b c : Value}

/-- Closures that come from one evaluation of one function. -/
def Twins (c d : Closure) : Prop := c.identity = d.identity

theorem twins_equivalence : Equivalence Twins :=
  ⟨fun _ => rfl, fun h => Eq.symm h, fun h h' => Eq.trans h h'⟩

/-- Hosts compare by shape, down to the identity of closures. -/
theorem same_iff_related : a.same b = true ↔ Related Twins a b := by
  constructor
  · intro h
    induction a generalizing b with
    | int n =>
      cases b <;> simp only [same, beq_iff_eq, Bool.false_eq_true] at h
      exact h ▸ .int n
    | str s =>
      cases b <;> simp only [same, beq_iff_eq, Bool.false_eq_true] at h
      exact h ▸ .str s
    | bool t =>
      cases b <;> simp only [same, beq_iff_eq, Bool.false_eq_true] at h
      exact h ▸ .bool t
    | tuple left right ihleft ihright =>
      cases b <;> simp only [same, Bool.and_eq_true, Bool.false_eq_true] at h
      exact .tuple (ihleft h.1) (ihright h.2)
    | closure f =>
      cases b <;> simp only [same, beq_iff_eq, Bool.false_eq_true] at h
      exact .closure h
  · intro h
    induction h with
    | int | str | bool => simp [same]
    | tuple _ _ ihleft ihright => simp [same, ihleft, ihright]
    | closure h =>
      rw [same, beq_iff_eq]
      exact h

theorem same_equivalence : Equivalence fun a b : Value => a.same b = true := by
  have heq : (fun a b : Value => a.same b = true) = Related Twins := by
    funext a b
    exact propext same_iff_related
  rw [heq]
  exact Related.equivalence twins_equivalence

/-- The values that the language compares. -/
def Comparable (v : Value) : Prop := v.kind = .int ∨ v.kind = .str ∨ v.kind = .bool

theorem not_comparable (h : a.kind = .tuple ∨ a.kind = .closure) : ¬ a.Comparable := by
  unfold Comparable
  rcases h with h | h <;> simp [h]

theorem Equals.comparable (h : a.Equals b) : a.Comparable ∧ b.Comparable := by
  cases h <;> simp [Comparable, kind]

/-- Equal inside the language is the same to a host, among comparable values. -/
theorem equals_iff_same : a.Equals b ↔ a.same b = true ∧ a.Comparable := by
  constructor
  · intro h
    refine ⟨?_, h.comparable.1⟩
    cases h <;> simp [same]
  · rintro ⟨h, hkind⟩
    cases same_iff_related.mp h with
    | int n => exact .int n
    | str s => exact .str s
    | bool t => exact .bool t
    | tuple | closure => simp [Comparable, kind] at hkind

theorem Equals.symm (h : a.Equals b) : b.Equals a := by
  cases h <;> constructor

theorem Equals.trans (h : a.Equals b) (h' : b.Equals c) : a.Equals c := by
  cases h <;> exact h'

end Value

namespace Operator
variable {a b : Value}

theorem apply_eq_true_iff : eq.apply a b = .ok (.bool true) ↔ a.Equals b := by
  rw [← Value.equal_iff]
  simp [apply]

theorem apply_eq_false_iff : eq.apply a b = .ok (.bool false) ↔ ¬ a.Equals b := by
  rw [← Value.equal_iff]
  simp [apply]

theorem apply_eq_comm : eq.apply a b = eq.apply b a := by
  by_cases h : a.Equals b
  · rw [apply_eq_true_iff.mpr h, apply_eq_true_iff.mpr h.symm]
  · rw [apply_eq_false_iff.mpr h, apply_eq_false_iff.mpr (mt Value.Equals.symm h)]

end Operator

open Operator (apply_eq_true_iff apply_eq_false_iff apply_eq_comm)

/-- Hosts see an equivalence of values, tuples compared part by part and closures by identity.
Equivalent values display as one text, have one name of their kind and count as true together.
The operator of the language finds two values equal exactly if they are equivalent and no tuples
or closures. So it is symmetric and transitive, but reflexive on integers, texts and truth values
only: a tuple or a closure equals nothing, not even itself. -/
theorem equalities_compared :
    (Equivalence fun a b : Value => a.same b = true) ∧
    (∀ a b a' b' : Value, (Value.tuple a b).same (.tuple a' b') = true ↔
      a.same a' = true ∧ b.same b' = true) ∧
    (∀ c d : Closure, (Value.closure c).same (.closure d) = true ↔ c.identity = d.identity) ∧
    (∀ a b : Value, a.same b = true → a.display = b.display ∧ a.kind.name = b.kind.name ∧
      a.isTruthy = b.isTruthy) ∧
    (∀ a b : Value, Operator.eq.apply a b = .ok (.bool true) ↔ a.same b = true ∧ a.Comparable) ∧
    (∀ a b : Value, Operator.eq.apply a b = Operator.eq.apply b a) ∧
    (∀ a b c : Value, Operator.eq.apply a b = .ok (.bool true) →
      Operator.eq.apply b c = .ok (.bool true) → Operator.eq.apply a c = .ok (.bool true)) ∧
    (∀ a : Value, Operator.eq.apply a a = .ok (.bool true) ↔ a.Comparable) ∧
    ∀ a b : Value, a.kind = .tuple ∨ a.kind = .closure →
      Operator.eq.apply a b = .ok (.bool false) ∧ Operator.eq.apply b a = .ok (.bool false) := by
  refine ⟨Value.same_equivalence, ?_, ?_, ?_, ?_, fun _ _ => apply_eq_comm, ?_, ?_, ?_⟩
  · intro a b a' b'
    rw [Value.same, Bool.and_eq_true]
  · intro c d
    rw [Value.same, beq_iff_eq]
  · intro a b h
    have hrelated := Value.same_iff_related.mp h
    exact ⟨hrelated.display_eq, congrArg ValueKind.name hrelated.kind_eq, hrelated.isTruthy_eq⟩
  · intro a b
    rw [apply_eq_true_iff, Value.equals_iff_same]
  · intro a b c hab hbc
    rw [apply_eq_true_iff] at hab hbc ⊢
    exact hab.trans hbc
  · intro a
    rw [apply_eq_true_iff, Value.equals_iff_same]
    exact and_iff_right (Value.same_equivalence.refl a)
  · intro a b h
    have hfalse : Operator.eq.apply a b = .ok (.bool false) := by
      rw [apply_eq_false_iff]
      intro hequals
      exact Value.not_comparable h hequals.comparable.1
    exact ⟨hfalse, apply_eq_comm.symm.trans hfalse⟩

/-- A closure in a pair in a pair. -/
def nestedClosure : Value :=
  .tuple (.int 1) (.tuple (.closure ⟨4, [], .int 0 .unstated, ⟨0⟩, .unstated⟩) (.str "x"))

theorem equalities_compared_nestedClosure :
    nestedClosure.same nestedClosure = true ∧ nestedClosure.kind = .tuple ∧
      nestedClosure.display = "(1, (<#closure>, x))" ∧
      Operator.eq.apply nestedClosure nestedClosure = .ok (.bool false) ∧
      Operator.eq.apply (.int 2) (.int 2) = .ok (.bool true) := by
  obtain ⟨hequivalence, -, -, hlike, -, -, htrans, hrefl, hfalse⟩ := equalities_compared
  have hsame := hequivalence.refl nestedClosure
  have htwo : Operator.eq.apply (.int 2) (.int 2) = .ok (.bool true) :=
    (hrefl (.int 2)).mpr (.inl rfl)
  have hdisplay : nestedClosure.display = "(1, (<#closure>, x))" := by
    rw [(hlike _ _ hsame).1, Value.display_eq_text]
    decide
  exact ⟨hsame, rfl, hdisplay, (hfalse _ nestedClosure (.inl rfl)).1, htrans _ _ _ htwo htwo⟩

end TreeScript

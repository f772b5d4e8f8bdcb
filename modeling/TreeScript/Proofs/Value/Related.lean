import Mathlib.Data.List.Forall2
import TreeScript.Proofs.Operation
import TreeScript.Value.Display

/-!
Values that differ in their closures at most. The language tells them apart in nothing: they are
of one kind, count as true together, display as one text and give operators the same results.
-/
namespace TreeScript

namespace Value

/-- Values of the same shape whose closures are related. -/
inductive Related (K : Closure → Closure → Prop) : Value → Value → Prop where
  | int (n : Int) : Related K (.int n) (.int n)
  | str (s : String) : Related K (.str s) (.str s)
  | bool (b : Bool) : Related K (.bool b) (.bool b)
  | tuple {a b a' b' : Value} :
      Related K a a' → Related K b b' → Related K (.tuple a b) (.tuple a' b')
  | closure {c c' : Closure} : K c c' → Related K (.closure c) (.closure c')

namespace Related
variable {K : Closure → Closure → Prop} {v v' w w' : Value}

theorem kind_eq (h : Related K v v') : v.kind = v'.kind := by
  cases h <;> rfl

theorem isTruthy_eq (h : Related K v v') : v.isTruthy = v'.isTruthy := by
  cases h <;> rfl

theorem equal_eq (hv : Related K v v') (hw : Related K w w') : v.equal w = v'.equal w' := by
  cases hv <;> cases hw <;> rfl

theorem refl (hK : ∀ c, K c c) (v : Value) : Related K v v := by
  induction v with
  | int n => exact .int n
  | str s => exact .str s
  | bool b => exact .bool b
  | tuple a b iha ihb => exact .tuple iha ihb
  | closure c => exact .closure (hK c)

theorem symm (hK : ∀ {c d}, K c d → K d c) (h : Related K v w) : Related K w v := by
  induction h with
  | int n => exact .int n
  | str s => exact .str s
  | bool b => exact .bool b
  | tuple _ _ iha ihb => exact .tuple iha ihb
  | closure hc => exact .closure (hK hc)

theorem trans {u : Value} (hK : ∀ {c d e}, K c d → K d e → K c e) (h : Related K v w)
    (h' : Related K w u) : Related K v u := by
  induction h generalizing u with
  | int | str | bool => exact h'
  | tuple _ _ iha ihb =>
    cases h' with
    | tuple ha hb => exact .tuple (iha ha) (ihb hb)
  | closure hc =>
    cases h' with
    | closure hd => exact .closure (hK hc hd)

/-- Related values are as much alike as their closures are. -/
theorem equivalence (hK : Equivalence K) : Equivalence (Related K) :=
  ⟨refl hK.refl, symm hK.symm, trans hK.trans⟩

theorem of_kind (h : v.kind = .int ∨ v.kind = .str ∨ v.kind = .bool) : Related K v v := by
  cases v with
  | int n => exact .int n
  | str s => exact .str s
  | bool b => exact .bool b
  | tuple a b => simp [kind] at h
  | closure c => simp [kind] at h

end Related

@[simp] theorem related_eq_iff {v v' : Value} : Related Eq v v' ↔ v = v' := by
  constructor
  · intro h
    induction h with
    | int | str | bool => rfl
    | tuple _ _ iha ihb => rw [iha, ihb]
    | closure h => rw [h]
  · rintro rfl
    exact .refl (fun _ => rfl) v

theorem related_eq : Related Eq = Eq := by
  funext v v'
  exact propext related_eq_iff

/-- Pieces left to write that are related. -/
inductive Piece.Related (K : Closure → Closure → Prop) : Piece → Piece → Prop where
  | text (s : String) : Piece.Related K (.text s) (.text s)
  | value {v v' : Value} : v.Related K v' → Piece.Related K (.value v) (.value v')

section Display
variable {K : Closure → Closure → Prop}

theorem Piece.Related.front {p p' : Piece} (h : p.Related K p') :
    p.front.1 = p'.front.1 ∧ List.Forall₂ (Piece.Related K) p.front.2 p'.front.2 := by
  cases h with
  | text s => exact ⟨rfl, .nil⟩
  | value h =>
    cases h with
    | int | str | closure => exact ⟨rfl, .nil⟩
    | bool b => cases b <;> exact ⟨rfl, .nil⟩
    | tuple ha hb =>
      exact ⟨rfl, .cons (.value ha) (.cons (.text _) (.cons (.value hb) (.cons (.text _) .nil)))⟩

theorem write_eq {out : String} {pending pending' : List Piece}
    (h : List.Forall₂ (Piece.Related K) pending pending') :
    write out pending = write out pending' := by
  induction out, pending using write.induct generalizing pending' with
  | case1 out =>
    cases h
    rfl
  | case2 out p rest ih =>
    cases h with
    | cons hp hrest =>
      obtain ⟨htext, hleft⟩ := hp.front
      rw [write, write, ← htext]
      exact ih (List.rel_append hleft hrest)

theorem Related.display_eq {v v' : Value} (h : Related K v v') : v.display = v'.display :=
  write_eq (.cons (.value h) .nil)

end Display

end Value

namespace Operator
variable {K : Closure → Closure → Prop} {a a' b b' : Value}

theorem applyInts_eq (op : Operator) (ha : a.Related K a') (hb : b.Related K b')
    (f : Int → Int → Outcome) : applyInts op a b f = applyInts op a' b' f := by
  cases ha <;> cases hb <;> rfl

theorem applyAdd_eq (ha : a.Related K a') (hb : b.Related K b') :
    applyAdd a b = applyAdd a' b' := by
  have hdisplay := congrArg₂ HAppend.hAppend ha.display_eq hb.display_eq
  -- Only where a text is joined to a tuple do the operands differ, and not in what they display as.
  cases ha <;> cases hb <;> first | rfl | exact congrArg (fun s => Except.ok (Value.str s)) hdisplay

/-- An operator does not look into closures. -/
theorem apply_eq (op : Operator) (ha : a.Related K a') (hb : b.Related K b') :
    op.apply a b = op.apply a' b' := by
  have hequal := ha.equal_eq hb
  have htrue := ha.isTruthy_eq
  have htrue' := hb.isTruthy_eq
  cases op with
  | add => exact applyAdd_eq ha hb
  | sub | mul | div | rem | lt | gt | lte | gte => exact applyInts_eq _ ha hb _
  | eq | neq => simp only [apply, hequal]
  | and | or => simp only [apply, htrue, htrue']

end Operator

end TreeScript

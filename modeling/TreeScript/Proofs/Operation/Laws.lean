import Mathlib
import TreeScript.Proofs.Operation
import TreeScript.Proofs.Value.Display

/-!
Binary operators by their laws. Main statement: for which operands an operator fails and with
what, and what it gives for all others: exact sums, differences and products, truncating
division, the order of integers, joined texts, equality and truth.
-/
namespace TreeScript

/-- A quotient and remainder of `a` by `b`: the remainder is smaller than the divisor and has
the sign of the dividend, if it has one. -/
structure Truncates (a b q r : Int) : Prop where
  exact : a = q * b + r
  smaller : |r| < |b|
  signed : r = 0 ∨ r.sign = a.sign

/-- No division by zero has a quotient. -/
theorem Truncates.ne_zero {m n q r : Int} (h : Truncates m n q r) : n ≠ 0 := by
  rintro rfl
  exact absurd h.smaller (by simp)

/-- There is one such pair. -/
theorem truncates_iff {a b q r : Int} (hb : b ≠ 0) :
    Truncates a b q r ↔ a.tdiv b = q ∧ a.tmod b = r := by
  constructor
  · rintro ⟨hexact, hsmaller, hsigned⟩
    rw [Int.abs_eq_natAbs b] at hsmaller
    obtain ⟨hlow, hhigh⟩ := abs_lt.mp hsmaller
    have hsum : r + b * q = a := by
      rw [hexact]
      ring
    rcases le_total 0 a with ha | ha
    · have hr : 0 ≤ r := by
        rcases hsigned with rfl | hsign
        · exact le_rfl
        · exact Int.sign_nonneg_iff.mp (hsign ▸ Int.sign_nonneg_iff.mpr ha)
      exact (Int.tdiv_tmod_unique ha hb).mpr ⟨hsum, hr, hhigh⟩
    · have hr : r ≤ 0 := by
        rcases hsigned with rfl | hsign
        · exact le_rfl
        · exact Int.sign_nonpos_iff.mp (hsign ▸ Int.sign_nonpos_iff.mpr ha)
      exact (Int.tdiv_tmod_unique' ha hb).mpr ⟨hsum, hlow, hr⟩
  · rintro ⟨rfl, rfl⟩
    refine ⟨(Int.tdiv_mul_add_tmod a b).symm, ?_, ?_⟩
    · rw [Int.abs_eq_natAbs, Int.abs_eq_natAbs, Int.natAbs_tmod, Int.ofNat_lt]
      exact Nat.mod_lt _ (Int.natAbs_pos.mpr hb)
    · have hsign := Int.sign_tmod a b
      split at hsign
      · exact .inl (Int.sign_eq_zero_iff_zero.mp hsign)
      · exact .inr hsign

namespace Value

theorem kind_eq_int_iff {v : Value} : v.kind = .int ↔ ∃ n, v = .int n := by
  cases v <;> simp [kind]

theorem isStr_iff {v : Value} : v.isStr = true ↔ v.kind = .str := by
  cases v <;> simp [isStr, kind]

/-- Equality inside the language: within one kind, and never of tuples or closures. -/
inductive Equals : Value → Value → Prop where
  | int (n : Int) : Equals (.int n) (.int n)
  | str (s : String) : Equals (.str s) (.str s)
  | bool (b : Bool) : Equals (.bool b) (.bool b)

theorem equal_iff {a b : Value} : a.equal b = true ↔ Equals a b := by
  constructor
  · intro h
    cases a <;> cases b <;> simp only [equal, beq_iff_eq, Bool.false_eq_true] at h <;> subst h <;>
      constructor
  · rintro (n | s | b) <;> simp [equal]

/-- What counts as true. -/
inductive Truthy : Value → Prop where
  | int {n : Int} : n ≠ 0 → Truthy (.int n)
  | str {s : String} : s ≠ "" → Truthy (.str s)
  | bool : Truthy (.bool true)

theorem isTruthy_iff {v : Value} : v.isTruthy = true ↔ Truthy v := by
  constructor
  · intro h
    cases v with
    | int n => exact .int (by simpa [isTruthy] using h)
    | str s => exact .str (by simpa [isTruthy] using h)
    | bool b =>
      cases h
      exact .bool
    | tuple | closure => cases h
  · rintro (hn | hs | _) <;> simp_all [isTruthy]

theorem bool_congr {t t' : Bool} {P : Prop} (h : t = true ↔ P) (h' : t' = true ↔ P) :
    Value.bool t = Value.bool t' :=
  congrArg Value.bool (Bool.eq_iff_iff.mpr (h.trans h'.symm))

@[simp] theorem display_str (s : String) : (Value.str s).display = s := display_eq_text (.str s)

end Value

namespace Operator

/-- A quotient or remainder of integers, and the divisor is zero. -/
def DividesByZero (op : Operator) (a b : Value) : Prop :=
  (op = .div ∨ op = .rem) ∧ a.kind = .int ∧ b = .int 0

/-- The operator has no meaning for operands of these kinds. -/
def Misfits (op : Operator) (a b : Value) : Prop :=
  (op ∈ [.sub, .mul, .div, .rem, .lt, .gt, .lte, .gte] ∧ (a.kind ≠ .int ∨ b.kind ≠ .int)) ∨
    (op = .add ∧ (a.kind ≠ .int ∨ b.kind ≠ .int) ∧ a.kind ≠ .str ∧ b.kind ≠ .str)

/-- What an operator gives, where it gives anything. -/
inductive Gives : Operator → Value → Value → Value → Prop where
  | sum (m n : Int) : Gives .add (.int m) (.int n) (.int (m + n))
  | join {a b : Value} : a.kind = .str ∨ b.kind = .str → Gives .add a b (.str (a.text ++ b.text))
  | difference (m n : Int) : Gives .sub (.int m) (.int n) (.int (m - n))
  | product (m n : Int) : Gives .mul (.int m) (.int n) (.int (m * n))
  | quotient {m n q r : Int} : Truncates m n q r → Gives .div (.int m) (.int n) (.int q)
  | remainder {m n q r : Int} : Truncates m n q r → Gives .rem (.int m) (.int n) (.int r)
  | less (m n : Int) : Gives .lt (.int m) (.int n) (.bool (m < n))
  | greater (m n : Int) : Gives .gt (.int m) (.int n) (.bool (n < m))
  | atMost (m n : Int) : Gives .lte (.int m) (.int n) (.bool (m ≤ n))
  | atLeast (m n : Int) : Gives .gte (.int m) (.int n) (.bool (n ≤ m))
  | same {a b : Value} {t : Bool} : (t = true ↔ a.Equals b) → Gives .eq a b (.bool t)
  | different {a b : Value} {t : Bool} : (t = true ↔ ¬ a.Equals b) → Gives .neq a b (.bool t)
  | both {a b : Value} {t : Bool} : (t = true ↔ a.Truthy ∧ b.Truthy) → Gives .and a b (.bool t)
  | either {a b : Value} {t : Bool} : (t = true ↔ a.Truthy ∨ b.Truthy) → Gives .or a b (.bool t)

/-- What must be so for an operator to have this outcome. -/
def Warrants (op : Operator) (a b : Value) : Outcome → Prop
  | .ok _ => ¬ op.DividesByZero a b ∧ ¬ op.Misfits a b
  | .error e => (e = .ofCause .divisionByZero ∧ op.DividesByZero a b) ∨
      (e = .ofCause (.invalidOperation op a.kind b.kind) ∧ op.Misfits a b)

variable {op : Operator} {a b : Value}

theorem not_misfits_of_dividesByZero (h : op.DividesByZero a b) : ¬ op.Misfits a b := by
  obtain ⟨hop, ha, rfl⟩ := h
  have hzero : (Value.int 0).kind = .int := rfl
  rcases hop with rfl | rfl <;> simp [Misfits, ha, hzero]

theorem warrants_applyInts {f : Int → Int → Outcome}
    (hop : op ∈ [.sub, .mul, .div, .rem, .lt, .gt, .lte, .gte])
    (hf : ∀ m n, op.Warrants (.int m) (.int n) (f m n)) :
    op.Warrants a b (applyInts op a b f) := by
  unfold applyInts
  split
  · exact hf _ _
  · rename_i hints
    refine .inr ⟨rfl, .inl ⟨hop, ?_⟩⟩
    by_contra! hkinds
    obtain ⟨m, rfl⟩ := Value.kind_eq_int_iff.mp hkinds.1
    obtain ⟨n, rfl⟩ := Value.kind_eq_int_iff.mp hkinds.2
    exact hints m n rfl rfl

theorem warrants_of_ints {m n : Int} {v : Value} (hdiv : op ≠ .div) (hrem : op ≠ .rem) :
    op.Warrants (.int m) (.int n) (.ok v) := by
  constructor
  · rintro ⟨hop | hop, -⟩
    · exact hdiv hop
    · exact hrem hop
  · simp [Misfits, Value.kind]

theorem warrants_divided {f : Int → Int → Int} {m n : Int} (hop : op = .div ∨ op = .rem) :
    op.Warrants (.int m) (.int n) (divided f m n) := by
  unfold divided
  split
  · rename_i hn
    subst hn
    exact .inl ⟨rfl, hop, rfl, rfl⟩
  · rename_i hn
    constructor
    · rintro ⟨-, -, hzero⟩
      exact hn (Value.int.inj hzero)
    · simp [Misfits, Value.kind]

theorem warrants_applyAdd : Operator.add.Warrants a b (applyAdd a b) := by
  unfold applyAdd
  split
  · exact warrants_of_ints (by decide) (by decide)
  · rename_i hints
    have hkinds : a.kind ≠ .int ∨ b.kind ≠ .int := by
      by_contra! hkinds
      obtain ⟨m, rfl⟩ := Value.kind_eq_int_iff.mp hkinds.1
      obtain ⟨n, rfl⟩ := Value.kind_eq_int_iff.mp hkinds.2
      exact hints m n rfl rfl
    split
    · rename_i hstr
      rw [Bool.or_eq_true, Value.isStr_iff, Value.isStr_iff] at hstr
      constructor
      · simp [DividesByZero]
      · rintro (⟨hop, -⟩ | ⟨-, -, ha, hb⟩)
        · simp at hop
        · exact hstr.elim ha hb
    · rename_i hstr
      simp only [Bool.or_eq_true, Value.isStr_iff, not_or] at hstr
      exact .inr ⟨rfl, .inr ⟨rfl, hkinds, hstr⟩⟩

/-- Every outcome of an operator is warranted. -/
theorem warrants_apply : op.Warrants a b (op.apply a b) := by
  cases op with
  | add => exact warrants_applyAdd
  | sub | mul | lt | gt | lte | gte =>
    exact warrants_applyInts (by decide) fun m n => warrants_of_ints (by decide) (by decide)
  | div | rem => exact warrants_applyInts (by decide) fun m n => warrants_divided (by decide)
  | eq | neq | and | or => exact ⟨by simp [DividesByZero], by simp [Misfits]⟩

theorem apply_eq_error_iff {e : Failure} :
    op.apply a b = .error e ↔ (e = .ofCause .divisionByZero ∧ op.DividesByZero a b) ∨
      (e = .ofCause (.invalidOperation op a.kind b.kind) ∧ op.Misfits a b) := by
  have hwarrants : op.Warrants a b (op.apply a b) := warrants_apply
  cases h : op.apply a b with
  | ok v =>
    rw [h] at hwarrants
    simp [hwarrants.1, hwarrants.2]
  | error d =>
    rw [h] at hwarrants
    rw [Except.error.injEq]
    constructor
    · rintro rfl
      exact hwarrants
    · intro he
      rcases hwarrants with ⟨rfl, hd⟩ | ⟨rfl, hd⟩ <;> rcases he with ⟨rfl, he⟩ | ⟨rfl, he⟩
      · rfl
      · exact absurd he (not_misfits_of_dividesByZero hd)
      · exact absurd hd (not_misfits_of_dividesByZero he)
      · rfl

theorem apply_succeeds_iff :
    (∃ v, op.apply a b = .ok v) ↔ ¬ op.DividesByZero a b ∧ ¬ op.Misfits a b := by
  have hwarrants : op.Warrants a b (op.apply a b) := warrants_apply
  cases h : op.apply a b with
  | ok v =>
    rw [h] at hwarrants
    exact ⟨fun _ => hwarrants, fun _ => ⟨v, rfl⟩⟩
  | error e =>
    rw [h] at hwarrants
    simp only [reduceCtorEq, exists_false, false_iff, not_and, not_not]
    intro hzero
    rcases hwarrants with ⟨-, he⟩ | ⟨-, he⟩
    · exact absurd he hzero
    · exact he

section Integers
variable (m n : Int)

theorem apply_div_rem (hn : n ≠ 0) :
    ∃ q r, Operator.div.apply (.int m) (.int n) = .ok (.int q) ∧
      Operator.rem.apply (.int m) (.int n) = .ok (.int r) ∧ Truncates m n q r ∧
      ∀ q' r', Truncates m n q' r' → q' = q ∧ r' = r := by
  refine ⟨m.tdiv n, m.tmod n, if_neg hn, if_neg hn, (truncates_iff hn).mpr ⟨rfl, rfl⟩, ?_⟩
  intro q r h
  obtain ⟨hq, hr⟩ := (truncates_iff hn).mp h
  exact ⟨hq.symm, hr.symm⟩

/-- Of two integers one is less, they are equal, or one is greater. -/
theorem apply_order :
    ∃ less same more : Bool,
      Operator.lt.apply (.int m) (.int n) = .ok (.bool less) ∧
      Operator.eq.apply (.int m) (.int n) = .ok (.bool same) ∧
      Operator.gt.apply (.int m) (.int n) = .ok (.bool more) ∧
      (less = true ↔ m < n) ∧ (same = true ↔ m = n) ∧
      less.toNat + same.toNat + more.toNat = 1 ∧
      Operator.lte.apply (.int m) (.int n) = .ok (.bool !more) ∧
      Operator.gte.apply (.int m) (.int n) = .ok (.bool !less) := by
  have hlte : decide (m ≤ n) = !decide (m > n) := by
    rw [← decide_not, decide_eq_decide, gt_iff_lt, not_lt]
  have hgte : decide (m ≥ n) = !decide (m < n) := by
    rw [← decide_not, decide_eq_decide, ge_iff_le, not_lt]
  refine ⟨decide (m < n), m == n, decide (m > n), rfl, rfl, rfl, by simp, by simp, ?_,
    hlte ▸ rfl, hgte ▸ rfl⟩
  rcases lt_trichotomy m n with h | rfl | h
  · simp [h, h.ne, h.not_gt]
  · simp
  · simp [h, h.ne', h.not_gt]

end Integers

/-- A text on either side joins what both display as. -/
theorem apply_add_of_str (h : a.kind = .str ∨ b.kind = .str) :
    Operator.add.apply a b = .ok (.str (a.display ++ b.display)) := by
  have hstr : (a.isStr || b.isStr) = true := by
    rwa [Bool.or_eq_true, Value.isStr_iff, Value.isStr_iff]
  simp only [apply, applyAdd]
  split
  · cases hstr
  · rw [if_pos hstr]

theorem applyInts_eq_ok {f : Int → Int → Outcome} {v : Value} (h : applyInts op a b f = .ok v) :
    ∃ m n, a = .int m ∧ b = .int n ∧ f m n = .ok v := by
  unfold applyInts at h
  split at h
  · exact ⟨_, _, rfl, rfl, h⟩
  · cases h

theorem divided_eq_ok {f : Int → Int → Int} {m n : Int} {v : Value}
    (h : divided f m n = .ok v) : n ≠ 0 ∧ v = .int (f m n) := by
  unfold divided at h
  split at h
  · cases h
  · rename_i hn
    exact ⟨hn, (Except.ok.inj h).symm⟩

theorem gives_of_applyAdd {v : Value} (h : applyAdd a b = .ok v) : Gives .add a b v := by
  unfold applyAdd at h
  split at h
  · cases h
    exact .sum _ _
  · split at h
    · rename_i hstr
      rw [Bool.or_eq_true, Value.isStr_iff, Value.isStr_iff] at hstr
      cases h
      rw [Value.display_eq_text, Value.display_eq_text]
      exact .join hstr
    · cases h

theorem gives_of_apply {v : Value} (h : op.apply a b = .ok v) : op.Gives a b v := by
  cases op with
  | add => exact gives_of_applyAdd h
  | sub | mul | lt | gt | lte | gte =>
    obtain ⟨m, n, rfl, rfl, ⟨⟩⟩ := applyInts_eq_ok h
    constructor
  | div =>
    obtain ⟨m, n, rfl, rfl, hv⟩ := applyInts_eq_ok h
    obtain ⟨hn, rfl⟩ := divided_eq_ok hv
    exact .quotient ((truncates_iff hn).mpr ⟨rfl, rfl⟩)
  | rem =>
    obtain ⟨m, n, rfl, rfl, hv⟩ := applyInts_eq_ok h
    obtain ⟨hn, rfl⟩ := divided_eq_ok hv
    exact .remainder ((truncates_iff hn).mpr ⟨rfl, rfl⟩)
  | eq =>
    cases h
    exact .same Value.equal_iff
  | neq =>
    cases h
    exact .different (by simp [← Value.equal_iff])
  | and =>
    cases h
    exact .both (by simp [← Value.isTruthy_iff])
  | or =>
    cases h
    exact .either (by simp [← Value.isTruthy_iff])

/-- An operator gives a value exactly where its law says so. -/
theorem apply_eq_ok_iff {v : Value} : op.apply a b = .ok v ↔ op.Gives a b v := by
  refine ⟨gives_of_apply, fun h => ?_⟩
  cases h with
  | sum | difference | product | less | greater | atMost | atLeast => rfl
  | join h =>
    rw [apply_add_of_str h, Value.display_eq_text, Value.display_eq_text]
  | quotient h =>
    obtain ⟨rfl, -⟩ := (truncates_iff h.ne_zero).mp h
    exact if_neg h.ne_zero
  | remainder h =>
    obtain ⟨-, rfl⟩ := (truncates_iff h.ne_zero).mp h
    exact if_neg h.ne_zero
  | same h => exact congrArg Except.ok (Value.bool_congr Value.equal_iff h)
  | different h =>
    exact congrArg Except.ok (Value.bool_congr (by simp [← Value.equal_iff]) h)
  | both h =>
    exact congrArg Except.ok (Value.bool_congr (by simp [← Value.isTruthy_iff]) h)
  | either h =>
    exact congrArg Except.ok (Value.bool_congr (by simp [← Value.isTruthy_iff]) h)

/-- Around a text, joining is associative. -/
theorem apply_add_assoc (a c : Value) (s : String) :
    ∃ v, (Operator.add.apply (.str s) c >>= fun right => Operator.add.apply a right) = .ok v ∧
      (Operator.add.apply a (.str s) >>= fun left => Operator.add.apply left c) = .ok v := by
  refine ⟨.str (a.display ++ (s ++ c.display)), ?_, ?_⟩
  · have hright := apply_add_of_str (a := .str s) (b := c) (.inl rfl)
    have hleft := apply_add_of_str (a := a) (b := .str (s ++ c.display)) (.inr rfl)
    simp only [hright, Value.display_str] at hleft ⊢
    exact hleft
  · have hleft := apply_add_of_str (a := a) (b := .str s) (.inr rfl)
    have hright := apply_add_of_str (a := .str (a.display ++ s)) (b := c) (.inl rfl)
    simp only [hleft, Value.display_str, String.append_assoc] at hright ⊢
    exact hright

/-- A binary operator fails for a zero divisor and for kinds that it has no meaning for, and for
nothing else. Sums, differences and products of integers are exact, division truncates, and the
orderings and the equality of integers exclude one another. A text on either side of a sum joins
what both sides display as, in whatever order texts are joined. Equality and its negation, and
the two connectives, have a truth value for all operands. -/
theorem operators_characterized :
    (∀ (op : Operator) (a b : Value),
      (op.apply a b = .error (.ofCause .divisionByZero) ↔ op.DividesByZero a b) ∧
      (op.apply a b = .error (.ofCause (.invalidOperation op a.kind b.kind)) ↔ op.Misfits a b) ∧
      ((∃ v, op.apply a b = .ok v) ↔ ¬ op.DividesByZero a b ∧ ¬ op.Misfits a b)) ∧
    (∀ m n : Int, add.apply (.int m) (.int n) = .ok (.int (m + n)) ∧
      sub.apply (.int m) (.int n) = .ok (.int (m - n)) ∧
      mul.apply (.int m) (.int n) = .ok (.int (m * n))) ∧
    (∀ m n : Int, n ≠ 0 → ∃ q r, div.apply (.int m) (.int n) = .ok (.int q) ∧
      rem.apply (.int m) (.int n) = .ok (.int r) ∧ Truncates m n q r ∧
      ∀ q' r', Truncates m n q' r' → q' = q ∧ r' = r) ∧
    (∀ m n : Int, ∃ less same more : Bool, lt.apply (.int m) (.int n) = .ok (.bool less) ∧
      eq.apply (.int m) (.int n) = .ok (.bool same) ∧
      gt.apply (.int m) (.int n) = .ok (.bool more) ∧
      (less = true ↔ m < n) ∧ (same = true ↔ m = n) ∧
      less.toNat + same.toNat + more.toNat = 1 ∧
      lte.apply (.int m) (.int n) = .ok (.bool !more) ∧
      gte.apply (.int m) (.int n) = .ok (.bool !less)) ∧
    (∀ a b, a.kind = .str ∨ b.kind = .str →
      ∃ s, add.apply a b = .ok (.str s) ∧ (Value.str s).display = a.display ++ b.display) ∧
    (∀ (a c : Value) (s : String), ∃ v,
      (add.apply (.str s) c >>= fun right => add.apply a right) = .ok v ∧
      (add.apply a (.str s) >>= fun left => add.apply left c) = .ok v) ∧
    (∀ a b, ∃ same, eq.apply a b = .ok (.bool same) ∧ neq.apply a b = .ok (.bool !same) ∧
      (same = true ↔ a.Equals b)) ∧
    ∀ a b, ∃ both either, and.apply a b = .ok (.bool both) ∧ or.apply a b = .ok (.bool either) ∧
      (both = true ↔ a.Truthy ∧ b.Truthy) ∧ (either = true ↔ a.Truthy ∨ b.Truthy) := by
  refine ⟨?_, fun _ _ => ⟨rfl, rfl, rfl⟩, apply_div_rem, apply_order, ?_, apply_add_assoc, ?_, ?_⟩
  · intro op a b
    refine ⟨?_, ?_, apply_succeeds_iff⟩
    · simp [apply_eq_error_iff, Failure.ofCause]
    · simp [apply_eq_error_iff, Failure.ofCause]
  · intro a b h
    exact ⟨_, apply_add_of_str h, Value.display_str _⟩
  · intro a b
    exact ⟨_, rfl, rfl, Value.equal_iff⟩
  · intro a b
    refine ⟨_, _, rfl, rfl, ?_, ?_⟩
    · rw [Bool.and_eq_true, Value.isTruthy_iff, Value.isTruthy_iff]
    · rw [Bool.or_eq_true, Value.isTruthy_iff, Value.isTruthy_iff]

/-- Seven below zero, divided by two. -/
theorem operators_characterized_negativeDividend :
    (2 : Int) ≠ 0 ∧ div.apply (.int (-7)) (.int 2) = .ok (.int (-3)) ∧
      rem.apply (.int (-7)) (.int 2) = .ok (.int (-1)) := by
  obtain ⟨-, -, hdivision, -⟩ := operators_characterized
  obtain ⟨q, r, hq, hr, -, hunique⟩ := hdivision (-7) 2 (by decide)
  obtain ⟨rfl, rfl⟩ := hunique (-3) (-1) ⟨by decide, by decide, .inr (by decide)⟩
  exact ⟨by decide, hq, hr⟩

end Operator

end TreeScript

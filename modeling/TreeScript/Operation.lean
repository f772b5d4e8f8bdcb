import TreeScript.Failure
import TreeScript.Value.Display

/-!
What binary operators do to two values. Division truncates toward zero, so that a
remainder has the sign of the dividend. Failures carry no location.
-/
namespace TreeScript

namespace Value

/-- Equality inside the language: whole numbers, texts and truth values of one kind.
A tuple or a closure equals nothing. -/
def equal : Value → Value → Bool
  | .int a, .int b => a == b
  | .str a, .str b => a == b
  | .bool a, .bool b => a == b
  | _, _ => false

end Value

namespace Operator

def invalid (op : Operator) (left right : Value) : Outcome :=
  .error (.ofCause (.invalidOperation op left.kind right.kind))

/-- Sums of integers; a text on either side joins what both display as. -/
def applyAdd (left right : Value) : Outcome :=
  match left, right with
  | .int a, .int b => .ok (.int (a + b))
  | left, right =>
    if left.isStr || right.isStr then .ok (.str (left.display ++ right.display))
    else invalid .add left right

/-- An operator on integers only. -/
def applyInts (op : Operator) (left right : Value) (f : Int → Int → Outcome) : Outcome :=
  match left, right with
  | .int a, .int b => f a b
  | left, right => invalid op left right

/-- A quotient or remainder, which has no value for a zero divisor. -/
def divided (f : Int → Int → Int) (a b : Int) : Outcome :=
  if b = 0 then .error (.ofCause .divisionByZero) else .ok (.int (f a b))

def apply (op : Operator) (left right : Value) : Outcome :=
  match op with
  | .add => applyAdd left right
  | .sub => applyInts op left right fun a b => .ok (.int (a - b))
  | .mul => applyInts op left right fun a b => .ok (.int (a * b))
  | .div => applyInts op left right (divided Int.tdiv)
  | .rem => applyInts op left right (divided Int.tmod)
  | .lt => applyInts op left right fun a b => .ok (.bool (a < b))
  | .gt => applyInts op left right fun a b => .ok (.bool (a > b))
  | .lte => applyInts op left right fun a b => .ok (.bool (a ≤ b))
  | .gte => applyInts op left right fun a b => .ok (.bool (a ≥ b))
  | .eq => .ok (.bool (left.equal right))
  | .neq => .ok (.bool (!left.equal right))
  | .and => .ok (.bool (left.isTruthy && right.isTruthy))
  | .or => .ok (.bool (left.isTruthy || right.isTruthy))

end Operator

end TreeScript

import TreeScript.Term.Basic

/-!
Equality of syntax trees, locations included, is decidable.
-/
namespace TreeScript.Term

mutual

def same : Term → Term → Bool
  | .int a l, .int b m => a = b && l = m
  | .str a l, .str b m => a = b && l = m
  | .bool a l, .bool b m => a = b && l = m
  | .binary op a b l, .binary op' a' b' m => op = op' && same a a' && same b b' && l = m
  | .print a l, .print b m => same a b && l = m
  | .conditional a b c l, .conditional a' b' c' m =>
    same a a' && same b b' && same c c' && l = m
  | .first a l, .first b m => same a b && l = m
  | .second a l, .second b m => same a b && l = m
  | .tuple a b l, .tuple a' b' m => same a a' && same b b' && l = m
  | .var a l, .var b m => a = b && l = m
  | .binding x a b l, .binding x' a' b' m => x = x' && same a a' && same b b' && l = m
  | .function ps a l, .function ps' a' m => ps = ps' && same a a' && l = m
  | .call a as l, .call a' as' m => same a a' && sameAll as as' && l = m
  | _, _ => false

def sameAll : List Term → List Term → Bool
  | [], [] => true
  | a :: as, b :: bs => same a b && sameAll as bs
  | _, _ => false

end

mutual

theorem same_iff (a b : Term) : same a b = true ↔ a = b := by
  cases a <;> cases b <;>
    simp [same, same_iff, sameAll_iff, and_assoc]

theorem sameAll_iff (as bs : List Term) : sameAll as bs = true ↔ as = bs := by
  match as, bs with
  | [], [] => simp [sameAll]
  | [], _ :: _ => simp [sameAll]
  | _ :: _, [] => simp [sameAll]
  | a :: as, b :: bs => simp [sameAll, same_iff a b, sameAll_iff as bs]

end

instance : DecidableEq Term := fun a b => decidable_of_iff _ (same_iff a b)

end TreeScript.Term

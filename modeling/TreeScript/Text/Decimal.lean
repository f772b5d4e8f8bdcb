/-!
Decimal text of whole numbers. Reading undoes writing for every natural number
and every integer.
-/
namespace TreeScript.Decimal

def ofNat (n : Nat) : String := n.repr

def ofInt : Int → String
  | .ofNat n => ofNat n
  | .negSucc n => "-" ++ ofNat (n + 1)

/-- One or more digits and nothing else. -/
def nat? (text : List Char) : Option Nat :=
  if text.isEmpty then none
  else if text.all Char.isDigit then some (Nat.ofDigitChars 10 text 0)
  else none

/-- Digits after an optional minus sign. -/
def int? : List Char → Option Int
  | '-' :: text => (nat? text).map fun n => -(n : Int)
  | text => (nat? text).map fun n => (n : Int)

theorem toList_ofNat (n : Nat) : (ofNat n).toList = Nat.toDigits 10 n := Nat.toList_repr

theorem nat?_toDigits (n : Nat) : nat? (Nat.toDigits 10 n) = some n := by
  have hne : (Nat.toDigits 10 n).isEmpty = false := by
    simp [List.isEmpty_eq_false_iff, Nat.toDigits_ne_nil]
  have hall : (Nat.toDigits 10 n).all Char.isDigit = true :=
    List.all_eq_true.mpr fun c hc => Nat.isDigit_of_mem_toDigits (by decide) (by decide) hc
  simp [nat?, hne, hall, Nat.ofDigitChars_ten_toDigits]

@[simp] theorem nat?_ofNat (n : Nat) : nat? (ofNat n).toList = some n := by
  rw [toList_ofNat, nat?_toDigits]

theorem int?_of_nat? {text : List Char} {n : Nat} (h : nat? text = some n) :
    int? text = some (n : Int) := by
  unfold int?
  split
  · rename_i rest
    simp [nat?, show ('-' : Char).isDigit = false from rfl] at h
  · simp [h]

@[simp] theorem int?_ofInt (n : Int) : int? (ofInt n).toList = some n := by
  cases n with
  | ofNat n => exact int?_of_nat? (nat?_ofNat n)
  | negSucc n =>
    have h : (ofInt (.negSucc n)).toList = '-' :: (ofNat (n + 1)).toList := by
      simp [ofInt, String.toList_append]
    rw [h, int?, nat?_ofNat]
    rfl

end TreeScript.Decimal

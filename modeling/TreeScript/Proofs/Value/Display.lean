import Mathlib.Logic.Function.Iterate
import TreeScript.Value.Display

/-!
The text of a value by plain recursion, and the turns of the work list that writes it. Main
statement: whatever stands below a value in the work list, after the turns of the value its text
is written and the rest is left; so a value displays as its text.
-/
namespace TreeScript.Value

/-- The text of a value, the parts of a tuple in brackets. -/
def text : Value → String
  | .int n => Decimal.ofInt n
  | .str s => s
  | .bool true => "true"
  | .bool false => "false"
  | .tuple a b => "(" ++ a.text ++ ", " ++ b.text ++ ")"
  | .closure _ => "<#closure>"

/-- One turn: the first pending piece is written as far as it goes, and what is left of it
takes its place. -/
def turn : String × List Piece → String × List Piece
  | (out, []) => (out, [])
  | (out, p :: rest) => (out ++ p.front.1, p.front.2 ++ rest)

/-- How many turns a value takes. A tuple takes one for each bracket and one for its comma. -/
def turns : Value → Nat
  | .tuple a b => 1 + b.turns + 1 + a.turns + 1
  | _ => 1

theorem write_nil (out : String) : write out [] = out := by rw [write]

theorem write_cons (out : String) (p : Piece) (rest : List Piece) :
    write out (p :: rest) = write (out ++ p.front.1) (p.front.2 ++ rest) := by rw [write]

/-- Writing goes on after a turn as it would have before it. -/
theorem write_turn (work : String × List Piece) :
    write (turn work).1 (turn work).2 = write work.1 work.2 := by
  obtain ⟨out, pending⟩ := work
  cases pending with
  | nil => rfl
  | cons p rest => exact (write_cons out p rest).symm

theorem write_iterate_turn (n : Nat) (work : String × List Piece) :
    write (turn^[n] work).1 (turn^[n] work).2 = write work.1 work.2 := by
  induction n generalizing work with
  | zero => rfl
  | succ n ih =>
    rw [Function.iterate_succ_apply, ih]
    exact write_turn work

/-- After the turns of a value its text is written, and what waits below it is untouched. -/
theorem iterate_turn_value (v : Value) (out : String) (rest : List Piece) :
    turn^[v.turns] (out, .value v :: rest) = (out ++ v.text, rest) := by
  induction v generalizing out rest with
  | int | str | closure => rfl
  | bool b => cases b <;> rfl
  | tuple a b iha ihb =>
    have hopen : turn (out, .value (.tuple a b) :: rest) =
        (out ++ "(", .value a :: .text ", " :: .value b :: .text ")" :: rest) := rfl
    have hcomma : turn (out ++ "(" ++ a.text, .text ", " :: .value b :: .text ")" :: rest) =
        (out ++ "(" ++ a.text ++ ", ", .value b :: .text ")" :: rest) := rfl
    rw [turns, Function.iterate_succ_apply, hopen, Function.iterate_add_apply, iha,
      Function.iterate_succ_apply, hcomma, Function.iterate_add_apply, ihb,
      Function.iterate_one]
    simp [turn, Piece.front, text, String.append_assoc]

theorem display_eq_text (v : Value) : v.display = v.text := by
  have hend := write_iterate_turn v.turns ("", [.value v])
  rw [iterate_turn_value, write_nil, String.empty_append] at hend
  exact hend.symm

/-- The work list comes to its end on every value, and has then written the text of the value,
which is how the value displays. -/
theorem worklist_writes_text (v : Value) :
    turn^[v.turns] ("", [.value v]) = (v.text, []) ∧ v.display = v.text := by
  refine ⟨?_, v.display_eq_text⟩
  rw [iterate_turn_value, String.empty_append]

end TreeScript.Value

import TreeScript.Value.Basic

/-!
The text that a value prints as. It is read off a work list, so that tuples of any depth
are safe.
-/
namespace TreeScript.Value

inductive Piece where
  | text (s : String)
  | value (v : Value)

noncomputable def Piece.weight : Piece → Nat
  | .text _ => 1
  | .value v => 3 * sizeOf v

noncomputable def workload (pending : List Piece) : Nat := Worklist.load Piece.weight pending

/-- One piece of text and what is left to write of a single piece. -/
def Piece.front : Piece → String × List Piece
  | .text s => (s, [])
  | .value (.int n) => (Decimal.ofInt n, [])
  | .value (.str s) => (s, [])
  | .value (.bool true) => ("true", [])
  | .value (.bool false) => ("false", [])
  | .value (.tuple a b) => ("(", [.value a, .text ", ", .value b, .text ")"])
  | .value (.closure _) => ("<#closure>", [])

theorem workload_front (p : Piece) (rest : List Piece) :
    workload (p.front.2 ++ rest) < workload (p :: rest) := by
  unfold Piece.front
  split
  all_goals simp [workload, Piece.weight]
  all_goals omega

def write (out : String) (pending : List Piece) : String :=
  match pending with
  | [] => out
  | p :: rest => write (out ++ p.front.1) (p.front.2 ++ rest)
termination_by workload pending
decreasing_by exact workload_front p rest

def display (v : Value) : String := write "" [.value v]

end TreeScript.Value

/-!
Work lists. What is still to do stands in a list; a step replaces the first item by items
that together weigh less, so the work comes to its end.
-/
namespace TreeScript.Worklist

variable {α : Type}

/-- The weight of all items together. -/
def load (weight : α → Nat) : List α → Nat
  | [] => 0
  | a :: rest => weight a + load weight rest

@[simp] theorem load_nil (weight : α → Nat) : load weight [] = 0 := rfl

@[simp] theorem load_cons (weight : α → Nat) (a : α) (rest : List α) :
    load weight (a :: rest) = weight a + load weight rest := rfl

end TreeScript.Worklist

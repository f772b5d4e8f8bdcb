import TreeScript.Text.Decimal

/-!
Counts of an evaluation: nodes visited and calls entered, modulo 2^64, and the
deepest nesting of calls.
-/
namespace TreeScript

structure Counters where
  terms : UInt64
  calls : UInt64
  maxDepth : Nat
  deriving DecidableEq, Repr

namespace Counters

def zero : Counters := ⟨0, 0, 0⟩

def countTerm (c : Counters) : Counters := { c with terms := c.terms + 1 }

/-- Counts a call entered as the `depth`-th in progress. -/
def countCall (c : Counters) (depth : Nat) : Counters :=
  { c with calls := c.calls + 1, maxDepth := max c.maxDepth depth }

def report (c : Counters) : String :=
  "Evaluation profile:\n  Terms evaluated: " ++ Decimal.ofNat c.terms.toNat
    ++ "\n  Function calls:  " ++ Decimal.ofNat c.calls.toNat
    ++ "\n  Max call depth:  " ++ Decimal.ofNat c.maxDepth

end Counters

end TreeScript

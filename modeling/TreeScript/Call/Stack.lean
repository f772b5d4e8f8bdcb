import TreeScript.Failure

/-!
The calls in progress, under a limit on how many there may be.
-/
namespace TreeScript

/-- Calls in progress, outermost first, and the limit if there is one. -/
structure CallStack where
  calls : Array Call
  limit : Option Nat
  deriving DecidableEq, Repr

namespace CallStack

def empty (limit : Option Nat) : CallStack := ⟨#[], limit⟩

def depth (s : CallStack) : Nat := s.calls.size

def isEmpty (s : CallStack) : Bool := s.calls.isEmpty

/-- The limit that allows no further call, if it is reached. -/
def exhausted? (s : CallStack) : Option Nat :=
  match s.limit with
  | some limit => if limit ≤ s.depth then some limit else none
  | none => none

def enter (s : CallStack) (c : Call) : CallStack := { s with calls := s.calls.push c }

/-- One call more, unless the limit is reached. -/
def push (s : CallStack) (c : Call) : Except Failure CallStack :=
  match s.exhausted? with
  | some limit => .error (.ofCause (.stackOverflow limit))
  | none => .ok (s.enter c)

def pop (s : CallStack) : CallStack := { s with calls := s.calls.pop }

/-- The calls in progress, innermost first. -/
def capture (s : CallStack) : Backtrace := ⟨s.calls.toList.reverse⟩

/-- Gives a failure the calls in progress, if there are any and it has none yet. -/
def attach (s : CallStack) (e : Failure) : Failure :=
  if s.isEmpty || e.backtrace.isSome then e else e.withBacktrace s.capture

end CallStack

end TreeScript

import TreeScript.Call.Stack
import TreeScript.Counters
import TreeScript.Printer
import TreeScript.Store
import TreeScript.Value.Display

/-!
What an evaluation reads and changes: frames, printed text, the calls in progress,
and the counters if they are wanted.
-/
namespace TreeScript.Evaluation

structure State where
  store : Store
  printer : Printer
  stack : CallStack
  counters : Option Counters

namespace State

/-- Counts the visit of a node. -/
def visit (s : State) : State := { s with counters := s.counters.map Counters.countTerm }

def print (s : State) (v : Value) : State := { s with printer := s.printer.println v.display }

def bind (s : State) (f : FrameId) (name : String) (v : Value) : State :=
  { s with store := s.store.bind f name v }

def newClosure (s : State) (parameters : List Parameter) (body : Term) (f : FrameId)
    (l : Location) : Value × State :=
  match s with
  | ⟨store, printer, stack, counters⟩ =>
    let (v, store) := store.newClosure parameters body f l
    (v, ⟨store, printer, stack, counters⟩)

/-- Enters a call: one call more is in progress, and a new frame below the closure's
own binds its parameters. -/
def enter (s : State) (c : Closure) (arguments : List Value) (call : Call) : FrameId × State :=
  match s with
  | ⟨store, printer, stack, counters⟩ =>
    let stack := stack.enter call
    let (f, store) := store.newChild c.frame c.parameters arguments
    (f, ⟨store, printer, stack, counters.map fun n => n.countCall stack.depth⟩)

def leave (s : State) : State := { s with stack := s.stack.pop }

end State

end TreeScript.Evaluation

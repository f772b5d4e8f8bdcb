import TreeScript.Document.Decode
import TreeScript.Evaluation.Body
import TreeScript.RunFailure

/-!
An interpreter: a state of evaluation and the frame in which it runs programs. What a
run leaves behind, also one that fails, is there for the next. A run is given fuel,
and has no answer if the fuel ends first.
-/
namespace TreeScript

structure Interpreter where
  root : FrameId
  state : Evaluation.State

namespace Interpreter

/-- The limit on nested calls that holds unless another is set. -/
def defaultMaxDepth : Nat := 200000

/-- An interpreter with one empty frame. -/
def new (limit : Option Nat) (sink : Sink) (profile : Bool) : Interpreter :=
  let (root, store) := Store.empty.newRoot
  ⟨root, ⟨store, .new sink, .empty limit, if profile then some .zero else none⟩⟩

def evaluate (fuel : Nat) (t : Term) (f : FrameId) (i : Interpreter) :
    Option (Outcome × Interpreter) :=
  match i with
  | ⟨root, state⟩ =>
    match Plan.run Evaluation.body fuel ⟨t, f⟩ state with
    | some (r, state) => some (r, ⟨root, state⟩)
    | none => none

/-- Runs what was decoded as a program. Nothing is evaluated unless all of it is. -/
def runDecoded (fuel : Nat) (decoded : Except Document.Error Program) (i : Interpreter) :
    Option (Except RunFailure Value × Interpreter) :=
  match decoded with
  | .error e => some (.error (.decode e), i)
  | .ok p =>
    match i.evaluate fuel p.expression i.root with
    | some (r, i) => some (r.mapError .eval, i)
    | none => none

/-- Decodes a text as a program and runs it. -/
def runSource (fuel : Nat) (source : String) (i : Interpreter) :
    Option (Except RunFailure Value × Interpreter) :=
  i.runDecoded fuel (Document.parseProgram source)

def callDepth (i : Interpreter) : Nat := i.state.stack.depth

def captured (i : Interpreter) : String := i.state.printer.captured

def clear (i : Interpreter) : Interpreter :=
  { i with state := { i.state with printer := i.state.printer.clear } }

end Interpreter

end TreeScript

import TreeScript.Call.Backtrace
import TreeScript.Diagnostic.Basic
import TreeScript.Operator
import TreeScript.Value.Basic

/-!
Failures of evaluation: a cause, the node that failed, the calls it happened in, and
notes on related places.
-/
namespace TreeScript

namespace Failure

inductive Cause where
  | undefinedVariable (name : String)
  | invalidOperation (op : Operator) (left right : ValueKind)
  | divisionByZero
  | typeMismatch (expected got : ValueKind)
  | notCallable (got : ValueKind)
  | arityMismatch (expected got : Nat)
  | stackOverflow (limit : Nat)
  deriving DecidableEq, Repr

def Cause.code : Cause → Code
  | .undefinedVariable _ => .undefinedVariable
  | .invalidOperation _ _ _ => .invalidOperation
  | .divisionByZero => .divisionByZero
  | .typeMismatch _ _ => .typeMismatch
  | .notCallable _ => .notCallable
  | .arityMismatch _ _ => .arityMismatch
  | .stackOverflow _ => .stackOverflow

def Cause.message : Cause → String
  | .undefinedVariable name => .join ["undefined variable `", name, "`"]
  | .invalidOperation op left right =>
    .join ["invalid `", op.symbol, "` operation between `", left.name, "` and `", right.name, "`"]
  | .divisionByZero => "division by zero"
  | .typeMismatch expected got => .join ["`", got.name, "` is not a ", expected.name]
  | .notCallable got => .join ["`", got.name, "` is not callable"]
  | .arityMismatch expected got =>
    .join ["expected ", Decimal.ofNat expected, " argument", if expected = 1 then "" else "s",
      ", got ", Decimal.ofNat got]
  | .stackOverflow limit => .join ["maximum call depth of ", Decimal.ofNat limit, " exceeded"]

/-- A message on a related place. -/
structure Note where
  message : String
  location : Location
  deriving DecidableEq, Repr

end Failure

structure Failure where
  cause : Failure.Cause
  message : String
  location : Option Location
  backtrace : Option Backtrace
  notes : List Failure.Note
  deriving DecidableEq, Repr

namespace Failure

def ofCause (cause : Cause) : Failure := ⟨cause, cause.message, none, none, []⟩

def located (e : Failure) (l : Location) : Failure := { e with location := some l }

def withBacktrace (e : Failure) (b : Backtrace) : Failure := { e with backtrace := some b }

def withNote (e : Failure) (note : Note) : Failure := { e with notes := e.notes ++ [note] }

def code (e : Failure) : Code := e.cause.code

def text (e : Failure) : String :=
  match e.location with
  | some l => l.text ++ ": " ++ e.message
  | none => e.message

/-- The failure as a diagnostic. The backtrace is no part of it. -/
def toDiagnostic (e : Failure) : Diagnostic :=
  let d := Diagnostic.ofError e.code e.message
  let d :=
    match e.location with
    | some l => d.withPrimary l e.message
    | none => d
  e.notes.foldl (fun d note => d.withSecondary note.location note.message) d

/-- A function called with another number of arguments than it has parameters. -/
def wrongArity (c : Closure) (got : Nat) : Failure :=
  (ofCause (.arityMismatch c.arity got)).withNote ⟨"function defined here", c.location⟩

end Failure

/-- What an evaluation that ends gives. -/
abbrev Outcome := Except Failure Value

end TreeScript

import TreeScript.Term.Basic

/-!
Runtime values. A closure holds its function and a handle to the frame it was made
in, and has an identity of its own.
-/
namespace TreeScript

inductive ValueKind where
  | int | str | bool | tuple | closure
  deriving DecidableEq, Repr

def ValueKind.name : ValueKind → String
  | .int => "int"
  | .str => "str"
  | .bool => "bool"
  | .tuple => "tuple"
  | .closure => "closure"

/-- A handle to a frame of bindings. -/
structure FrameId where
  index : Nat
  deriving DecidableEq, Repr, Inhabited

structure Closure where
  identity : Nat
  parameters : List Parameter
  body : Term
  frame : FrameId
  /-- Where the function was written. -/
  location : Location

inductive Value where
  | int (n : Int)
  | str (s : String)
  | bool (b : Bool)
  | tuple (left right : Value)
  | closure (c : Closure)

def Closure.arity (c : Closure) : Nat := c.parameters.length

namespace Value

instance : Inhabited Value := ⟨.bool false⟩

def kind : Value → ValueKind
  | .int _ => .int
  | .str _ => .str
  | .bool _ => .bool
  | .tuple _ _ => .tuple
  | .closure _ => .closure

/-- What counts as true in conditions and connectives: every integer but zero, every
text but the empty one, and true. Tuples and closures do not. -/
def isTruthy : Value → Bool
  | .int n => n != 0
  | .str s => s != ""
  | .bool b => b
  | .tuple _ _ | .closure _ => false

def isStr : Value → Bool
  | .str _ => true
  | _ => false

def int? : Value → Option Int
  | .int n => some n
  | _ => none

/-- Equality as a host sees it: tuples by their parts, closures by identity. -/
def same : Value → Value → Bool
  | .int a, .int b => a == b
  | .str a, .str b => a == b
  | .bool a, .bool b => a == b
  | .tuple a b, .tuple c d => same a c && same b d
  | .closure c, .closure d => c.identity == d.identity
  | _, _ => false

end Value

end TreeScript

import TreeScript.Location
import TreeScript.Operator
import TreeScript.Term.Kind
import TreeScript.Worklist

/-!
Syntax trees. Every node carries the location it was written at.
-/
namespace TreeScript

/-- A binding site: the name of a binding or a function's parameter. -/
structure Parameter where
  text : String
  location : Location
  deriving DecidableEq, Repr, Inhabited

inductive Term where
  | int (value : Int) (location : Location)
  | str (value : String) (location : Location)
  | bool (value : Bool) (location : Location)
  | binary (op : Operator) (lhs rhs : Term) (location : Location)
  | print (value : Term) (location : Location)
  | conditional (condition consequent alternative : Term) (location : Location)
  | first (value : Term) (location : Location)
  | second (value : Term) (location : Location)
  | tuple (left right : Term) (location : Location)
  | var (name : String) (location : Location)
  | binding (name : Parameter) (value next : Term) (location : Location)
  | function (parameters : List Parameter) (body : Term) (location : Location)
  | call (callee : Term) (arguments : List Term) (location : Location)

/-- A whole program: its name, its tree, and the location of the file if it states one. -/
structure Program where
  name : String
  expression : Term
  location : Option Location

namespace Term

instance : Inhabited Term := ⟨.bool false default⟩

def kind : Term → NodeKind
  | .int .. => .int
  | .str .. => .str
  | .bool .. => .bool
  | .binary .. => .binary
  | .print .. => .print
  | .conditional .. => .conditional
  | .first .. => .first
  | .second .. => .second
  | .tuple .. => .tuple
  | .var .. => .var
  | .binding .. => .binding
  | .function .. => .function
  | .call .. => .call

def location : Term → Location
  | .int _ l | .str _ l | .bool _ l | .var _ l => l
  | .print _ l | .first _ l | .second _ l => l
  | .tuple _ _ l | .function _ _ l | .call _ _ l => l
  | .binary _ _ _ l | .conditional _ _ _ l | .binding _ _ _ l => l

/-- Child nodes from left to right. -/
def children : Term → List Term
  | .int .. | .str .. | .bool .. | .var .. => []
  | .print value _ | .first value _ | .second value _ => [value]
  | .binary _ lhs rhs _ => [lhs, rhs]
  | .tuple left right _ => [left, right]
  | .conditional condition consequent alternative _ => [condition, consequent, alternative]
  | .binding _ value next _ => [value, next]
  | .function _ body _ => [body]
  | .call callee arguments _ => callee :: arguments

theorem load_lt_sizeOf (ts : List Term) : Worklist.load sizeOf ts < sizeOf ts := by
  induction ts with
  | nil => simp
  | cons t ts ih => simp; omega

theorem load_children (t : Term) : Worklist.load sizeOf t.children < sizeOf t := by
  cases t with
  | call callee arguments l =>
    have := load_lt_sizeOf arguments
    simp [children]; omega
  | _ => simp [children] <;> omega

end Term

end TreeScript

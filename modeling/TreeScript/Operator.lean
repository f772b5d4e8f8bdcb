/-!
Binary operators: the tag that a syntax tree spells, and the symbol that
messages show.
-/
namespace TreeScript

inductive Operator where
  | add | sub | mul | div | rem
  | eq | neq | lt | gt | lte | gte
  | and | or
  deriving DecidableEq, Repr

namespace Operator

def all : List Operator :=
  [.add, .sub, .mul, .div, .rem, .eq, .neq, .lt, .gt, .lte, .gte, .and, .or]

theorem mem_all (op : Operator) : op ∈ all := by cases op <;> decide

def tag : Operator → String
  | .add => "Add"
  | .sub => "Sub"
  | .mul => "Mul"
  | .div => "Div"
  | .rem => "Rem"
  | .eq => "Eq"
  | .neq => "Neq"
  | .lt => "Lt"
  | .gt => "Gt"
  | .lte => "Lte"
  | .gte => "Gte"
  | .and => "And"
  | .or => "Or"

def ofTag? (tag : String) : Option Operator := all.find? fun op => op.tag == tag

def symbol : Operator → String
  | .add => "+"
  | .sub => "-"
  | .mul => "*"
  | .div => "/"
  | .rem => "%"
  | .eq => "=="
  | .neq => "!="
  | .lt => "<"
  | .gt => ">"
  | .lte => "<="
  | .gte => ">="
  | .and => "&&"
  | .or => "||"

/-- Operators on integers only. Addition also joins strings and is not among them. -/
def isArithmetic : Operator → Bool
  | .sub | .mul | .div | .rem => true
  | _ => false

def isOrdering : Operator → Bool
  | .lt | .gt | .lte | .gte => true
  | _ => false

def isLogical : Operator → Bool
  | .and | .or => true
  | _ => false

@[simp] theorem ofTag?_tag (op : Operator) : ofTag? op.tag = some op := by
  cases op <;> decide

theorem tag_of_ofTag? {tag : String} {op : Operator} (h : ofTag? tag = some op) :
    op.tag = tag := by
  simpa using List.find?_some h

end Operator

end TreeScript

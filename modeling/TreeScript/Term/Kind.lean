/-!
The thirteen kinds of syntax tree nodes and the tags that spell them.
-/
namespace TreeScript

inductive NodeKind where
  | int | str | bool | binary | print | conditional | first | second | tuple
  | var | binding | function | call
  deriving DecidableEq, Repr

namespace NodeKind

def all : List NodeKind :=
  [.int, .str, .bool, .binary, .print, .conditional, .first, .second, .tuple, .var, .binding,
    .function, .call]

theorem mem_all (k : NodeKind) : k ∈ all := by cases k <;> decide

def tag : NodeKind → String
  | .int => "Int"
  | .str => "Str"
  | .bool => "Bool"
  | .binary => "Binary"
  | .print => "Print"
  | .conditional => "If"
  | .first => "First"
  | .second => "Second"
  | .tuple => "Tuple"
  | .var => "Var"
  | .binding => "Let"
  | .function => "Function"
  | .call => "Call"

def ofTag? (tag : String) : Option NodeKind := all.find? fun k => k.tag == tag

@[simp] theorem ofTag?_tag (k : NodeKind) : ofTag? k.tag = some k := by
  cases k <;> decide

theorem tag_of_ofTag? {tag : String} {k : NodeKind} (h : ofTag? tag = some k) :
    k.tag = tag := by
  simpa using List.find?_some h

end NodeKind

end TreeScript

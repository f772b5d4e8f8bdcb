/-!
The codes under which failures are reported, and what `--explain` says about each.
-/
namespace TreeScript

inductive Code where
  | invalidJson | invalidTree
  | undefinedVariable | invalidOperation | divisionByZero | typeMismatch | notCallable
  | arityMismatch | stackOverflow
  | unreadableInput
  deriving DecidableEq, Repr

namespace Code

def all : List Code :=
  [.invalidJson, .invalidTree, .undefinedVariable, .invalidOperation, .divisionByZero,
    .typeMismatch, .notCallable, .arityMismatch, .stackOverflow, .unreadableInput]

def text : Code → String
  | .invalidJson => "E1001"
  | .invalidTree => "E1002"
  | .undefinedVariable => "E6001"
  | .invalidOperation => "E6002"
  | .divisionByZero => "E6003"
  | .typeMismatch => "E6004"
  | .notCallable => "E6005"
  | .arityMismatch => "E6006"
  | .stackOverflow => "E6007"
  | .unreadableInput => "E9001"

/-- The code that a text spells, in letters of either case. -/
def ofText? (text : String) : Option Code :=
  all.find? fun c => c.text.toLower == text.toLower

/-- Runtime failures have the codes that begin with E6. -/
def isRuntime (c : Code) : Bool := c.text.startsWith "E6"

def explanation : Code → String
  | .invalidJson => "The input is not a valid JSON document."
  | .invalidTree =>
    "The input is valid JSON but does not describe a syntax tree: a node has an " ++
    "unknown `kind`, is missing a field, or a field has the wrong type."
  | .undefinedVariable =>
    "A variable was referenced that is not bound by any enclosing `let` or " ++
    "function parameter."
  | .invalidOperation =>
    "An operator was applied to operands it does not support. `+` accepts two " ++
    "integers or at least one string; `-`, `*`, `/`, `%`, `<`, `>`, `<=` and `>=` " ++
    "accept only integers."
  | .divisionByZero => "The right operand of `/` or `%` evaluated to zero."
  | .typeMismatch =>
    "A value of the wrong kind was used, such as `first` or `second` applied to " ++
    "something that is not a tuple."
  | .notCallable => "The callee of a call expression did not evaluate to a function."
  | .arityMismatch =>
    "A function was called with a different number of arguments than it " ++
    "declares parameters."
  | .stackOverflow =>
    "The program recursed deeper than the configured call depth limit. Raise it " ++
    "with `--max-depth=<n>`, or pass `--max-depth=0` to remove it."
  | .unreadableInput => "The program file or standard input could not be read."

end Code

end TreeScript

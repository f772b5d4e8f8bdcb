import TreeScript.Term.Basic
import TreeScript.Text.Quoted

/-!
The debugging form of syntax trees: every constructor with its fields by name,
each node followed by its location.
-/
namespace TreeScript

def Parameter.debug (p : Parameter) : String :=
  "Parameter \x7b text: " ++ Quoted.quote p.text ++ ", location: " ++ p.location.debug ++ " \x7d"

def Operator.debug (op : Operator) : String := op.tag

namespace Term

def debugBool (b : Bool) : String := if b then "true" else "false"

mutual

/-- Writes the form of a term after `out`. -/
def debugAfter (out : String) : Term → String
  | .int n l => out ++ "Int(" ++ Decimal.ofInt n ++ ") @ " ++ l.debug
  | .str s l => out ++ "Str(" ++ Quoted.quote s ++ ") @ " ++ l.debug
  | .bool b l => out ++ "Bool(" ++ debugBool b ++ ") @ " ++ l.debug
  | .binary op lhs rhs l =>
    let out := debugAfter (out ++ "Binary \x7b op: " ++ op.debug ++ ", lhs: ") lhs
    debugAfter (out ++ ", rhs: ") rhs ++ " \x7d @ " ++ l.debug
  | .print value l => debugAfter (out ++ "Print(") value ++ ") @ " ++ l.debug
  | .conditional condition consequent alternative l =>
    let out := debugAfter (out ++ "If \x7b condition: ") condition
    let out := debugAfter (out ++ ", then: ") consequent
    debugAfter (out ++ ", otherwise: ") alternative ++ " \x7d @ " ++ l.debug
  | .first value l => debugAfter (out ++ "First(") value ++ ") @ " ++ l.debug
  | .second value l => debugAfter (out ++ "Second(") value ++ ") @ " ++ l.debug
  | .tuple left right l =>
    let out := debugAfter (out ++ "Tuple \x7b first: ") left
    debugAfter (out ++ ", second: ") right ++ " \x7d @ " ++ l.debug
  | .var name l => out ++ "Var(" ++ Quoted.quote name ++ ") @ " ++ l.debug
  | .binding name value next l =>
    let out := debugAfter (out ++ "Let \x7b name: " ++ name.debug ++ ", value: ") value
    debugAfter (out ++ ", next: ") next ++ " \x7d @ " ++ l.debug
  | .function parameters body l =>
    let shown := ", ".intercalate (parameters.map Parameter.debug)
    let out := out ++ "Function(FunctionDef \x7b parameters: [" ++ shown ++ "], body: "
    debugAfter out body ++ " \x7d) @ " ++ l.debug
  | .call callee arguments l =>
    let out := debugAfter (out ++ "Call \x7b callee: ") callee
    debugAllAfter (out ++ ", arguments: [") "" arguments ++ "] \x7d @ " ++ l.debug

/-- Writes the forms of several terms after `out`, the first after `mark`, the others
after a comma. -/
def debugAllAfter (out mark : String) : List Term → String
  | [] => out
  | t :: ts => debugAllAfter (debugAfter (out ++ mark) t) ", " ts

end

def debug (t : Term) : String := debugAfter "" t

end Term

def Program.debug (p : Program) : String :=
  let location :=
    match p.location with
    | some l => "Some(" ++ l.debug ++ ")"
    | none => "None"
  "File \x7b name: " ++ Quoted.quote p.name ++ ", expression: " ++ p.expression.debug
    ++ ", location: " ++ location ++ " \x7d"

end TreeScript

import TreeScript.Value.Basic
import TreeScript.Text.Quoted

/-!
The debugging form of values. A closure shows its parameters and its location, never
the frame it holds.
-/
namespace TreeScript

def Closure.debug (c : Closure) : String :=
  "Closure \x7b parameters: ["
    ++ ", ".intercalate (c.parameters.map fun p => Quoted.quote p.text)
    ++ "], location: " ++ c.location.debug ++ ", .. \x7d"

namespace Value

/-- Writes the form of a value after `out`. -/
def debugAfter (out : String) : Value → String
  | .int n => out ++ "Int(" ++ Decimal.ofInt n ++ ")"
  | .str s => out ++ "Str(" ++ Quoted.quote s ++ ")"
  | .bool true => out ++ "Bool(true)"
  | .bool false => out ++ "Bool(false)"
  | .tuple a b => debugAfter (debugAfter (out ++ "Tuple(") a ++ ", ") b ++ ")"
  | .closure c => out ++ c.debug

def debug (v : Value) : String := debugAfter "" v

end Value

end TreeScript

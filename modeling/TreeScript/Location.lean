import TreeScript.Text.Decimal

/-!
Places in a program text. A location serves diagnostics only; it never
influences evaluation.
-/
namespace TreeScript

/-- A file and two byte offsets into it. -/
structure Location where
  filename : String
  start : UInt32
  stop : UInt32
  deriving DecidableEq, Repr

namespace Location

/-- The location of a node that states none. -/
def unstated : Location := ⟨"", 0, 0⟩

instance : Inhabited Location := ⟨unstated⟩

def text (l : Location) : String :=
  l.filename ++ ":" ++ Decimal.ofNat l.start.toNat ++ ":" ++ Decimal.ofNat l.stop.toNat

def debug (l : Location) : String :=
  l.filename ++ "@" ++ Decimal.ofNat l.start.toNat ++ ".." ++ Decimal.ofNat l.stop.toNat

end Location

end TreeScript

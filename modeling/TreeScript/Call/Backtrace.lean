import TreeScript.Location

/-!
The calls in progress when a failure happened, innermost first.
-/
namespace TreeScript

/-- A call: the name it was made through and where it was made. -/
structure Call where
  name : String
  location : Location
  deriving DecidableEq, Repr

def Call.text (c : Call) : String := c.name ++ " at " ++ c.location.text

structure Backtrace where
  calls : List Call
  deriving DecidableEq, Repr

namespace Backtrace

def isEmpty (b : Backtrace) : Bool := b.calls.isEmpty

def length (b : Backtrace) : Nat := b.calls.length

/-- The outermost call. -/
def last? (b : Backtrace) : Option Call := b.calls.getLast?

/-- How many calls the text lists; it counts the others. -/
def shownCalls : Nat := 32

def text (b : Backtrace) : String :=
  if b.isEmpty then ""
  else
    let shown := (b.calls.take shownCalls).zipIdx.foldl
      (fun out (c, i) => out ++ "  " ++ Decimal.ofNat i ++ ": " ++ c.text ++ "\n")
      "stack backtrace:\n"
    let hidden := b.length - shownCalls
    if hidden = 0 then shown else shown ++ "  ... " ++ Decimal.ofNat hidden ++ " more frames\n"

end Backtrace

end TreeScript

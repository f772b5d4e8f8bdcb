import TreeScript.Diagnostic.Basic

/-!
Diagnostics for a terminal, with or without colours.
-/
namespace TreeScript

inductive ColorChoice where
  | auto | always | never
  deriving DecidableEq, Repr

def ColorChoice.ofText? : String → Option ColorChoice
  | "auto" => some .auto
  | "always" => some .always
  | "never" => some .never
  | _ => none

/-- Whether to use colours; only the automatic mode asks if there is a terminal. -/
def ColorChoice.enabled (mode : ColorChoice) (isTerminal : Bool) : Bool :=
  match mode with
  | .auto => isTerminal
  | .always => true
  | .never => false

inductive Style where
  | error | note | bold | secondary
  deriving DecidableEq, Repr

def Style.code : Style → String
  | .error => "\x1b[1;31m"
  | .note => "\x1b[1;36m"
  | .bold => "\x1b[1m"
  | .secondary => "\x1b[1;34m"

def Style.reset : String := "\x1b[0m"

def Severity.style : Severity → Style
  | .error => .error
  | .note => .note

namespace Diagnostic

def styled (colors : Bool) (style : Style) (text : String) : String :=
  if colors then style.code ++ text ++ Style.reset else text

def terminalHeadline (colors : Bool) (d : Diagnostic) : String :=
  let place :=
    match d.primary? with
    | some l => styled colors .bold l.text
    | none => styled colors d.severity.style d.caption
  let message := if d.isError then styled colors .bold d.message else d.message
  place ++ ": " ++ message ++ "\n"

def terminalLabel (colors : Bool) (l : Label) : String :=
  "  " ++ styled colors .secondary "-->" ++ " " ++ l.location.text ++ ": " ++ l.message ++ "\n"

def terminalNote (colors : Bool) (note : String) : String :=
  "  = " ++ styled colors .note "note" ++ ": " ++ note ++ "\n"

/-- One headline, a line for each secondary label, a line for each note. -/
def terminal (colors : Bool) (d : Diagnostic) : String :=
  let out := d.secondary.foldl (fun out l => out ++ terminalLabel colors l)
    (terminalHeadline colors d)
  d.notes.foldl (fun out note => out ++ terminalNote colors note) out

def terminalAll (colors : Bool) (ds : List Diagnostic) : String :=
  ds.foldl (fun out d => out ++ d.terminal colors) ""

end Diagnostic

end TreeScript

import TreeScript.Document.Fault
import TreeScript.Diagnostic.JsonLines
import TreeScript.Diagnostic.Terminal
import TreeScript.Failure
import TreeScript.Input.Source

/-!
Everything that keeps a program from running to its end, and how it is reported.
-/
namespace TreeScript

inductive RunFailure where
  | read (source : Input) (fault : ReadFault)
  | decode (error : Document.Error)
  | eval (error : Failure)
  deriving DecidableEq, Repr

/-- How failures are written: for people or for programs. -/
inductive ReportFormat where
  | human | json
  deriving DecidableEq, Repr

def ReportFormat.ofText? : String → Option ReportFormat
  | "human" => some .human
  | "json" => some .json
  | _ => none

namespace RunFailure

def text : RunFailure → String
  | .read source fault => "cannot read " ++ source.name ++ ": " ++ fault.message
  | .decode error => "invalid syntax tree: " ++ error.message
  | .eval error => error.text

/-- One for a program that failed, two for a program that never started. -/
def exitCode : RunFailure → Nat
  | .eval _ => 1
  | .read _ _ | .decode _ => 2

def code : RunFailure → Code
  | .read _ _ => .unreadableInput
  | .decode (.text _) => .invalidJson
  | .decode (.tree _) => .invalidTree
  | .eval error => error.code

def toDiagnostic (e : RunFailure) : Diagnostic :=
  match e with
  | .eval error => error.toDiagnostic
  | .decode _ => .ofError e.code e.text
  | .read _ _ =>
    (Diagnostic.ofError e.code e.text).withNote
      ("the program is read from stdin when piped, otherwise from FILE or `" ++ defaultPath ++ "`")

def backtrace? : RunFailure → Option Backtrace
  | .eval error => error.backtrace
  | _ => none

/-- The diagnostic in the wanted format, then the backtrace if it is wanted and known. -/
def report (format : ReportFormat) (colors withBacktrace : Bool) (e : RunFailure) : String :=
  let diagnostic :=
    match format with
    | .human => e.toDiagnostic.terminal colors
    | .json => e.toDiagnostic.jsonLine
  match withBacktrace, e.backtrace? with
  | true, some b => diagnostic ++ b.text
  | _, _ => diagnostic

end RunFailure

end TreeScript

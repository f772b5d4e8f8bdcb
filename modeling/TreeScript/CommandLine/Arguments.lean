import TreeScript.Interpreter

/-!
What a list of arguments asks for. Arguments are read from left to right; the first
that asks for something other than a run decides.
-/
namespace TreeScript.CommandLine

structure Options where
  /-- The limit on nested calls, if there is one. -/
  maxDepth : Option Nat
  profile : Bool
  backtrace : Bool
  color : ColorChoice
  format : ReportFormat
  deriving DecidableEq, Repr

def Options.default : Options :=
  ⟨some Interpreter.defaultMaxDepth, false, false, .auto, .human⟩

inductive Action where
  | help
  | version
  | explain (code : String)
  | usageError (message : String)
  | run (options : Options) (file : Option String)
  deriving DecidableEq, Repr

/-- A limit on nested calls: digits after an optional plus, below 2^64. Zero stands for
no limit. -/
def depthLimit? (text : String) : Option (Option Nat) :=
  let digits :=
    match text.toList with
    | '+' :: digits => digits
    | digits => digits
  match Decimal.nat? digits with
  | some n => if n = 0 then some none else if n < UInt64.size then some (some n) else none
  | none => none

/-- What follows a mark at the start of a text. -/
def after? (mark text : String) : Option String :=
  (mark.toList.isPrefixOf? text.toList).map String.ofList

def invalidValue (option value : String) : Action :=
  .usageError ("invalid " ++ option ++ " value '" ++ value ++ "'")

/-- Scans arguments after those that set `options` and `file`. -/
def scan (options : Options) (file : Option String) : List String → Action
  | [] => .run options file
  | arg :: rest =>
    if arg = "-h" ∨ arg = "--help" then .help
    else if arg = "-V" ∨ arg = "--version" then .version
    else if arg = "--explain" then
      match rest with
      | code :: _ => .explain code
      | [] => .usageError "--explain requires an error code"
    else if let some text := after? "--max-depth=" arg then
      match depthLimit? text with
      | some limit => scan { options with maxDepth := limit } file rest
      | none => invalidValue "--max-depth" text
    else if arg = "--profile" then scan { options with profile := true } file rest
    else if arg = "--backtrace" then scan { options with backtrace := true } file rest
    else if let some text := after? "--color=" arg then
      match ColorChoice.ofText? text with
      | some mode => scan { options with color := mode } file rest
      | none => invalidValue "--color" text
    else if let some text := after? "--error-format=" arg then
      match ReportFormat.ofText? text with
      | some format => scan { options with format := format } file rest
      | none => invalidValue "--error-format" text
    else if (after? "-" arg).isSome then .usageError ("unknown option '" ++ arg ++ "'")
    else
      match file with
      | none => scan options (some arg) rest
      | some _ => .usageError ("unexpected argument '" ++ arg ++ "'")

def Action.ofArguments (args : List String) : Action := scan .default none args

end TreeScript.CommandLine

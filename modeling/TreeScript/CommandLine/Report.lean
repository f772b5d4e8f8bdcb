import TreeScript.CommandLine.Arguments

/-!
What the command line answers: an exit code and what it writes.
-/
namespace TreeScript.CommandLine

structure Report where
  exitCode : Nat
  stdout : String
  stderr : String
  deriving DecidableEq, Repr

def versionNumber : String := "0.1.0"

def usage : String :=
  "Usage: rinha [OPTIONS] [FILE]\n" ++
  "\n" ++
  "Evaluates a Rinha program given as a JSON syntax tree. The program is\n" ++
  "read from stdin when it is piped, otherwise from FILE, falling back to\n" ++
  defaultPath ++ ".\n" ++
  "\n" ++
  "Options:\n" ++
  "  --max-depth=<n>         Call depth limit, 0 for unlimited (default: " ++
    Decimal.ofNat Interpreter.defaultMaxDepth ++ ")\n" ++
  "  --profile               Print evaluation counters to stderr\n" ++
  "  --backtrace             Print the call backtrace on runtime errors\n" ++
  "  --color=<when>          auto, always or never\n" ++
  "  --error-format=<fmt>    human or json\n" ++
  "  --explain <code>        Explain an error code, e.g. E6003\n" ++
  "  -h, --help              Print this help\n" ++
  "  -V, --version           Print the version\n" ++
  "\n" ++
  "Set RUST_LOG (e.g. RUST_LOG=rinha_eval=trace) to enable logging.\n"

def explanationReport (text : String) : Report :=
  match Code.ofText? text with
  | some code => ⟨0, code.text ++ ": " ++ code.explanation ++ "\n", ""⟩
  | none =>
    ⟨1, "", "Unknown error code: " ++ text ++ "\n\n" ++
      "Codes have the format EXXXX, e.g. E1001 or E6003.\n"⟩

def usageReport (message : String) : Report := ⟨2, "", "error: " ++ message ++ "\n\n" ++ usage⟩

def Options.interpreter (options : Options) (sink : Sink) : Interpreter :=
  .new options.maxDepth sink options.profile

def Options.errorText (options : Options) (stderrIsTerminal : Bool) (e : RunFailure) :
    String :=
  e.report options.format (options.color.enabled stderrIsTerminal) options.backtrace

/-- A program that could not be read. -/
def unreadable (options : Options) (stderrIsTerminal : Bool) (e : RunFailure) : Report :=
  ⟨e.exitCode, "", options.errorText stderrIsTerminal e⟩

/-- The end of a run: what is left of the printed text, then the profile if it was
wanted, then the failure if there was one. -/
def finish (options : Options) (stderrIsTerminal : Bool) (result : Except RunFailure Value)
    (state : Evaluation.State) : Report :=
  let profile :=
    match state.counters with
    | some counters => counters.report ++ "\n"
    | none => ""
  match result with
  | .ok _ => ⟨0, state.printer.held, profile⟩
  | .error e => ⟨e.exitCode, state.printer.held, profile ++ options.errorText stderrIsTerminal e⟩

/-- What a run of a program text answers, if the fuel lasts. -/
def runText (fuel : Nat) (options : Options) (stderrIsTerminal : Bool) (text : String) :
    Option Report :=
  match (options.interpreter .standard).runSource fuel text with
  | some (result, i) => some (finish options stderrIsTerminal result i.state)
  | none => none

/-- What a command line can see besides its arguments. -/
structure Surroundings where
  stdinIsTerminal : Bool
  stderrIsTerminal : Bool
  /-- What a source of a program holds. -/
  read : Input → Except ReadFault String

/-- The answer to an action that runs nothing. -/
def Action.direct? : Action → Option Report
  | .help => some ⟨0, "", usage⟩
  | .version => some ⟨0, "rinha " ++ versionNumber ++ "\n", ""⟩
  | .explain code => some (explanationReport code)
  | .usageError message => some (usageReport message)
  | .run _ _ => none

def Action.report (fuel : Nat) (world : Surroundings) (a : Action) : Option Report :=
  match a with
  | .run options file =>
    let source := Input.select file world.stdinIsTerminal
    match world.read source with
    | .ok text => runText fuel options world.stderrIsTerminal text
    | .error fault => some (unreadable options world.stderrIsTerminal (.read source fault))
  | a => a.direct?

/-- What a list of arguments answers, if the fuel lasts. -/
def execute (fuel : Nat) (world : Surroundings) (args : List String) : Option Report :=
  (Action.ofArguments args).report fuel world

end TreeScript.CommandLine

import TreeScript.CommandLine.Report

/-!
The command line itself: it asks for arguments, terminals and input, and sends printed
lines on while a program runs.
-/
namespace TreeScript.CommandLine

def faultOf : IO.Error → ReadFault
  | .noFileOrDirectory _ _ _ => .notFound
  | .permissionDenied _ _ _ => .permissionDenied
  | .inappropriateType _ code _ => if code = 21 then .isDirectory else .notDirectory
  | e => .system (toString e)

partial def readAll (input : IO.FS.Stream) (before : ByteArray) : IO ByteArray := do
  let bytes ← input.read 65536
  if bytes.isEmpty then return before else readAll input (before ++ bytes)

def readSource (source : Input) : IO (Except ReadFault String) := do
  try
    let bytes ←
      match source with
      | .standard => readAll (← IO.getStdin) ByteArray.empty
      | .file path => IO.FS.readBinFile path
    return textOfBytes bytes
  catch e => return .error (faultOf e)

/-- Sends a text. An output that is closed does not end a run. -/
def send (output : IO.FS.Stream) (text : String) : IO Unit := do
  try
    if text ≠ "" then
      output.putStr text
      output.flush
  catch _ => return ()

/-- How many steps pass between two looks at the printed text. -/
def slice : Nat := 100000

partial def runOn (output : IO.FS.Stream)
    (c : Plan.Config Evaluation.State Evaluation.Request Outcome) :
    IO (Outcome × Evaluation.State) := do
  match Plan.advance Evaluation.body slice c with
  | .finished r s => return (r, s)
  | .unfinished c =>
    let s := c.plan.state
    let (text, printer) := s.printer.flush
    send output text
    runOn output { c with plan := c.plan.withState { s with printer } }

def runProgram (options : Options) (stderrIsTerminal : Bool) (text : String) : IO Report := do
  let i := options.interpreter .standard
  match Document.parseProgram text with
  | .error e => return finish options stderrIsTerminal (.error (.decode e)) i.state
  | .ok p =>
    let (r, s) ← runOn (← IO.getStdout) (Plan.start ⟨p.expression, i.root⟩ i.state)
    return finish options stderrIsTerminal (r.mapError .eval) s

def perform (a : Action) : IO Report := do
  match a with
  | .run options file =>
    let stderrIsTerminal ← (← IO.getStderr).isTty
    let source := Input.select file (← (← IO.getStdin).isTty)
    match ← readSource source with
    | .ok text => runProgram options stderrIsTerminal text
    | .error fault => return unreadable options stderrIsTerminal (.read source fault)
  | a => return a.direct?.getD ⟨0, "", ""⟩

end TreeScript.CommandLine

def main (args : List String) : IO UInt32 := do
  let report ← TreeScript.CommandLine.perform (TreeScript.CommandLine.Action.ofArguments args)
  TreeScript.CommandLine.send (← IO.getStdout) report.stdout
  TreeScript.CommandLine.send (← IO.getStderr) report.stderr
  return report.exitCode.toUInt32

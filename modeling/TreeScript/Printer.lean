/-!
Where printed lines go: to standard output, into a buffer that a host can read, or
nowhere.
-/
namespace TreeScript

inductive Sink where
  | standard | buffer | silent
  deriving DecidableEq, Repr

/-- A sink and the text it holds. Text for standard output is held until it is sent. -/
structure Printer where
  sink : Sink
  held : String
  deriving DecidableEq, Repr

namespace Printer

def new (sink : Sink) : Printer := ⟨sink, ""⟩

def println (p : Printer) (line : String) : Printer :=
  match p.sink with
  | .silent => p
  | _ => { p with held := p.held ++ line ++ "\n" }

/-- What a host can read back; only a buffer keeps it. -/
def captured (p : Printer) : String :=
  match p.sink with
  | .buffer => p.held
  | _ => ""

def clear (p : Printer) : Printer :=
  match p.sink with
  | .buffer => { p with held := "" }
  | _ => p

/-- Sends what is held for standard output: the text sent and the printer after it. -/
def flush (p : Printer) : String × Printer :=
  match p.sink with
  | .standard => (p.held, { p with held := "" })
  | _ => ("", p)

end Printer

end TreeScript

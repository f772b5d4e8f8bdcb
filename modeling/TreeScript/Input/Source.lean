/-!
Where a program is read from, and why reading it can fail.
-/
namespace TreeScript

/-- The file read when neither standard input nor an argument gives the program. -/
def defaultPath : String := "/var/rinha/source.rinha.json"

inductive Input where
  | standard
  | file (path : String)
  deriving DecidableEq, Repr

namespace Input

/-- Standard input is read unless it is a terminal. -/
def select (file : Option String) (stdinIsTerminal : Bool) : Input :=
  if stdinIsTerminal then .file (file.getD defaultPath) else .standard

def name : Input → String
  | .standard => "<stdin>"
  | .file path => "`" ++ path ++ "`"

end Input

inductive ReadFault where
  | notFound | permissionDenied | notDirectory | isDirectory
  | notText
  | system (text : String)
  deriving DecidableEq, Repr

def ReadFault.message : ReadFault → String
  | .notFound => "No such file or directory (os error 2)"
  | .permissionDenied => "Permission denied (os error 13)"
  | .notDirectory => "Not a directory (os error 20)"
  | .isDirectory => "Is a directory (os error 21)"
  | .notText => "stream did not contain valid UTF-8"
  | .system text => text

/-- Bytes as text, if they are UTF-8. -/
def textOfBytes (bytes : ByteArray) : Except ReadFault String :=
  match String.fromUTF8? bytes with
  | some text => .ok text
  | none => .error .notText

end TreeScript

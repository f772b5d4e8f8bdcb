import TreeScript.Json.Basic
import TreeScript.Worklist

/-!
JSON text without blanks. Strings escape quotes, backslashes and the control
characters below a space. What is still to write waits in a list.
-/
namespace TreeScript.Json

def hexDigit (n : Nat) : Char :=
  if n < 10 then Char.ofNat ('0'.toNat + n) else Char.ofNat ('a'.toNat + (n - 10))

def escape (c : Char) : String :=
  if c = '"' then "\\\""
  else if c = '\\' then "\\\\"
  else if c = '\x08' then "\\b"
  else if c = '\x0c' then "\\f"
  else if c = '\n' then "\\n"
  else if c = '\r' then "\\r"
  else if c = '\t' then "\\t"
  else if c.toNat < 0x20 then
    String.ofList ['\\', 'u', '0', '0', hexDigit (c.toNat / 16), hexDigit (c.toNat % 16)]
  else c.toString

def quote (s : String) : String :=
  s.toList.foldl (fun out c => out ++ escape c) "\"" ++ "\""

/-- Something still to write: a value, or the rest of an array or object, whose first
item follows `mark`. -/
inductive Pending where
  | value (v : Json)
  | items (mark : String) (vs : List Json)
  | fields (mark : String) (fs : Fields)

noncomputable def Pending.weight : Pending → Nat
  | .value v => sizeOf v
  | .items _ vs => sizeOf vs
  | .fields _ fs => sizeOf fs

noncomputable def workload (pending : List Pending) : Nat := Worklist.load Pending.weight pending

/-- One piece of text and what is left to write of a single pending part. -/
def Pending.front : Pending → String × List Pending
  | .value .null => ("null", [])
  | .value (.bool true) => ("true", [])
  | .value (.bool false) => ("false", [])
  | .value (.number s) => (s, [])
  | .value (.string s) => (quote s, [])
  | .value (.array vs) => ("[", [.items "" vs])
  | .value (.object fs) => ("\x7b", [.fields "" fs])
  | .items _ [] => ("]", [])
  | .items mark (v :: rest) => (mark, [.value v, .items "," rest])
  | .fields _ [] => ("\x7d", [])
  | .fields mark ((name, v) :: rest) => (mark ++ quote name ++ ":", [.value v, .fields "," rest])

theorem workload_front (p : Pending) (rest : List Pending) :
    workload (p.front.2 ++ rest) < workload (p :: rest) := by
  unfold Pending.front
  split <;> simp [workload, Pending.weight] <;> omega

def write (out : String) (pending : List Pending) : String :=
  match pending with
  | [] => out
  | p :: rest => write (out ++ p.front.1) (p.front.2 ++ rest)
termination_by workload pending
decreasing_by exact workload_front p rest

def compact (v : Json) : String := write "" [.value v]

end TreeScript.Json

import TreeScript.Json.Fault
import TreeScript.Term.Kind

/-!
What keeps a document from being a program: its text is not JSON, or its JSON is not
a syntax tree.
-/
namespace TreeScript

namespace Document

/-- The part of a document that lacks a field or holds a wrong one. -/
inductive Holder where
  | file | term | parameter | location
  | node (kind : NodeKind)
  deriving DecidableEq, Repr

def Holder.name : Holder → String
  | .file => "File"
  | .term => "term"
  | .parameter => "Parameter"
  | .location => "Location"
  | .node kind => kind.tag

inductive Shape where
  | string | boolean | array | object | offset
  deriving DecidableEq, Repr

def Shape.description : Shape → String
  | .string => "a string"
  | .boolean => "a boolean"
  | .array => "an array"
  | .object => "an object"
  | .offset => "an offset between 0 and 4294967295"

inductive Fault where
  | expectedObject (holder : Holder)
  | missingField (holder : Holder) (field : String)
  | invalidField (holder : Holder) (field : String) (expected : Shape)
  | unknownKind (tag : String)
  | unknownOperator (tag : String)
  | invalidInteger (text : String)
  deriving DecidableEq, Repr

def Fault.message : Fault → String
  | .expectedObject holder => "expected a JSON object for " ++ holder.name
  | .missingField holder field => "`" ++ holder.name ++ "` node is missing field `" ++ field ++ "`"
  | .invalidField holder field expected =>
    "field `" ++ field ++ "` of `" ++ holder.name ++ "` must be " ++ expected.description
  | .unknownKind tag => "unknown node kind `" ++ tag ++ "`"
  | .unknownOperator tag => "unknown binary operator `" ++ tag ++ "`"
  | .invalidInteger text => "`" ++ text ++ "` is not an integer literal"

inductive Error where
  | text (error : Json.SyntaxError)
  | tree (fault : Fault)
  deriving DecidableEq, Repr

def Error.message : Error → String
  | .text error => "invalid JSON: " ++ error.message
  | .tree fault => fault.message

end Document

end TreeScript

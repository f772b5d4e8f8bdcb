import TreeScript.Text.Decimal

/-!
What is wrong with a text that is not one JSON value, and where: a line, and a
column counted in bytes.
-/
namespace TreeScript.Json

inductive Reason where
  | endOfValue | endOfString | endOfList | endOfObject
  | expectedValue | expectedWord | invalidNumber
  | controlCharacter | invalidEscape | loneSurrogate | brokenSurrogatePair
  | expectedCommaOrBracket | expectedCommaOrBrace | trailingComma
  | nameNotString | expectedColon | trailingCharacters
  /-- Something other than a string where a string with a number is wanted. -/
  | unspelled (found : String)
  deriving DecidableEq, Repr

def Reason.text : Reason → String
  | .endOfValue => "EOF while parsing a value"
  | .endOfString => "EOF while parsing a string"
  | .endOfList => "EOF while parsing a list"
  | .endOfObject => "EOF while parsing an object"
  | .expectedValue => "expected value"
  | .expectedWord => "expected ident"
  | .invalidNumber => "invalid number"
  | .controlCharacter => "control character (\\u0000-\\u001F) found while parsing a string"
  | .invalidEscape => "invalid escape"
  | .loneSurrogate => "lone leading surrogate in hex escape"
  | .brokenSurrogatePair => "unexpected end of hex escape"
  | .expectedCommaOrBracket => "expected `,` or `]`"
  | .expectedCommaOrBrace => "expected `,` or `\x7d`"
  | .trailingComma => "trailing comma"
  | .nameNotString => "key must be a string"
  | .expectedColon => "expected `:`"
  | .trailingCharacters => "trailing characters"
  | .unspelled found => "invalid type: " ++ found ++ ", expected string containing a number"

structure Position where
  line : Nat
  column : Nat
  deriving DecidableEq, Repr

structure SyntaxError where
  reason : Reason
  position : Position
  deriving DecidableEq, Repr

/-- A fault met with `rest` still to read, of which `taken` bytes are passed already. It
lies `ahead` bytes further on, or at the end of the text if that is nearer. A fault in a
text of its own has its place in that text. -/
inductive Fault where
  | near (reason : Reason) (rest : List Char) (taken ahead : Nat)
  | placed (error : SyntaxError)
  deriving DecidableEq, Repr

def byteLength (text : List Char) : Nat := text.foldl (fun n c => n + c.utf8Size) 0

/-- The place `bytes` bytes into a text whose first `offset` bytes hold `line - 1` line
ends, the last of them just before `lineStart`. -/
def positionFrom (bytes offset line lineStart : Nat) : List Char → Position
  | [] => ⟨line, bytes - lineStart⟩
  | c :: rest =>
    if bytes ≤ offset then ⟨line, bytes - lineStart⟩
    else if c = '\n' then positionFrom bytes (offset + 1) (line + 1) (offset + 1) rest
    else positionFrom bytes (offset + c.utf8Size) line lineStart rest

def positionAt (text : List Char) (bytes : Nat) : Position := positionFrom bytes 0 1 0 text

def Fault.locate (text : List Char) : Fault → SyntaxError
  | .near reason rest taken ahead =>
    let total := byteLength text
    ⟨reason, positionAt text (min total (total - byteLength rest + taken + ahead))⟩
  | .placed e => e

def SyntaxError.message (e : SyntaxError) : String :=
  e.reason.text ++ " at line " ++ Decimal.ofNat e.position.line ++ " column "
    ++ Decimal.ofNat e.position.column

end TreeScript.Json

/-!
# Why a text is not JSON

A reader of JSON stops at the first place where a text cannot be read any further. The cause says
what is wrong there; the place is a line, counted from one, and the number of bytes of that line
that were read or looked at.
-/

namespace Dataflow.Json

/-- What is wrong with a text that is to be JSON. -/
inductive Cause where
  | endInValue
  | endInArray
  | endInObject
  | endInString
  | missingColon
  | arrayNotGoingOn
  | objectNotGoingOn
  | unknownWord
  | noValue
  | nameNotText
  | trailingComma
  | trailingText
  | badNumber
  | badEscape
  | controlCharacter
  /-- The first half of a character stands alone. -/
  | missingHalf
  /-- A half of a character stands where it cannot. -/
  | strayHalf
  | outOfRange
  | tooDeep
deriving DecidableEq, Repr, Inhabited

def Cause.message : Cause → String
  | .endInValue => "EOF while parsing a value"
  | .endInArray => "EOF while parsing a list"
  | .endInObject => "EOF while parsing an object"
  | .endInString => "EOF while parsing a string"
  | .missingColon => "expected `:`"
  | .arrayNotGoingOn => "expected `,` or `]`"
  | .objectNotGoingOn => "expected `,` or `\x7d`"
  | .unknownWord => "expected ident"
  | .noValue => "expected value"
  | .nameNotText => "key must be a string"
  | .trailingComma => "trailing comma"
  | .trailingText => "trailing characters"
  | .badNumber => "invalid number"
  | .badEscape => "invalid escape"
  | .controlCharacter => "control character (\\u0000-\\u001F) found while parsing a string"
  | .missingHalf => "unexpected end of hex escape"
  | .strayHalf => "lone leading surrogate in hex escape"
  | .outOfRange => "number out of range"
  | .tooDeep => "recursion limit exceeded"

/-- A cause and its place. -/
structure Fault where
  cause : Cause
  line : Nat
  column : Nat
deriving DecidableEq, Repr, Inhabited

def Fault.message (f : Fault) : String :=
  s!"{f.cause.message} at line {f.line} column {f.column}"

/-- How many bytes a text takes. -/
def byteCount (text : List Char) : Nat := (text.map Char.utf8Size).foldr (· + ·) 0

/-- The line and column behind a number of bytes of a text, which itself starts at the given
ones. -/
def placeBehind (line column : Nat) : (bytes : Nat) → List Char → Nat × Nat
  | _, [] => (line, column)
  | bytes, c :: rest =>
    if bytes = 0 then (line, column)
    else if c = '\n' then placeBehind (line + 1) 0 (bytes - 1) rest
    else placeBehind line (column + min bytes c.utf8Size) (bytes - c.utf8Size) rest

/-- Why a reader stops, and how many bytes of the text are left then. -/
structure Stop where
  cause : Cause
  left : Nat
deriving DecidableEq, Repr, Inhabited

/-- A stop as a fault of the whole text. -/
def Stop.fault (text : List Char) (s : Stop) : Fault :=
  let (line, column) := placeBehind 1 0 (byteCount text - s.left) text
  { cause := s.cause, line, column }

end Dataflow.Json

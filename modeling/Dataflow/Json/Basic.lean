import Dataflow.Number.Decimal

/-!
# JSON

JSON values and their compact text. The members of an object are kept in the order in which they
were written, repeated names included; the text has them as they are kept.
-/

namespace Dataflow

/-- A JSON value. A number written as an integer is kept exactly. What is written as JSON but is no
value here, a number out of range, a string with half a character or one nested too deeply, is kept
as `unheld`, so that a reader may still pass over it. -/
inductive Json where
  | null
  | bool (b : Bool)
  | int (i : Int)
  | double (x : Double)
  | string (s : String)
  | array (items : List Json)
  | object (members : List (String × Json))
  | unheld
deriving Inhabited

namespace Json

/-! ## Text -/

/-- How JSON numbers are written: with the sign of a positive power of ten, from `10 ^ 16` on and
below `10 ^ (-5)`. What is no number has no text of its own. -/
def numberStyle : Decimal.Style where
  positional power := -5 ≤ power && power < 16
  pointZero := true
  plus := true
  tie := .even
  nan := "null"
  infinity := "null"
  negativeInfinity := "null"

def hexDigit (n : Nat) : Char := (Nat.toDigits 16 n).headD '0'

/-- A character inside a JSON string. -/
def escapedChar (c : Char) : List Char :=
  if c = '"' then ['\\', '"']
  else if c = '\\' then ['\\', '\\']
  else if c = '\n' then ['\\', 'n']
  else if c = '\r' then ['\\', 'r']
  else if c = '\t' then ['\\', 't']
  else if c.toNat = 8 then ['\\', 'b']
  else if c.toNat = 12 then ['\\', 'f']
  else if c.toNat < 0x20 then
    ['\\', 'u', '0', '0', hexDigit (c.toNat / 16), hexDigit (c.toNat % 16)]
  else [c]

/-- A JSON string. -/
def stringText (s : String) : String :=
  String.ofList ('"' :: s.toList.flatMap escapedChar ++ ['"'])

mutual

/-- The compact text of a value; that of what is not held is that of null. -/
def text : Json → String
  | .null | .unheld => "null"
  | .bool b => toString b
  | .int i => toString i
  | .double x => x.text numberStyle
  | .string s => stringText s
  | .array items => "[" ++ String.intercalate "," (itemTexts items) ++ "]"
  | .object members => "\x7b" ++ String.intercalate "," (memberTexts members) ++ "\x7d"
termination_by structural x => x

def itemTexts : List Json → List String
  | [] => []
  | j :: rest => text j :: itemTexts rest
termination_by structural x => x

def memberTexts : List (String × Json) → List String
  | [] => []
  | (k, j) :: rest => (stringText k ++ ":" ++ text j) :: memberTexts rest
termination_by structural x => x

end

mutual

/-- The text of a value over several lines, two spaces deeper at each level. -/
def prettyText (indent : String) : Json → String
  | .array [] => "[]"
  | .object [] => "\x7b\x7d"
  | .array (j :: rest) =>
    "[\n" ++ String.intercalate ",\n" (prettyItems (indent ++ "  ") (j :: rest)) ++ "\n" ++
      indent ++ "]"
  | .object (m :: rest) =>
    "\x7b\n" ++ String.intercalate ",\n" (prettyMembers (indent ++ "  ") (m :: rest)) ++ "\n" ++
      indent ++ "\x7d"
  | .null | .unheld => "null"
  | .bool b => toString b
  | .int i => toString i
  | .double x => x.text numberStyle
  | .string s => stringText s
termination_by structural x => x

def prettyItems (indent : String) : List Json → List String
  | [] => []
  | j :: rest => (indent ++ prettyText indent j) :: prettyItems indent rest
termination_by structural x => x

def prettyMembers (indent : String) : List (String × Json) → List String
  | [] => []
  | (k, j) :: rest =>
    (indent ++ stringText k ++ ": " ++ prettyText indent j) :: prettyMembers indent rest
termination_by structural x => x

end

end Json

/-!
## Shapes of JSON values

Readers of values that have to have some shape. A record is an object with known names, each at most
once, or an array with the values of the leading names.
-/

namespace Json

def isNull : Json → Bool
  | .null => true
  | _ => false

def asText? : Json → Option String
  | .string s => some s
  | _ => none

def asFlag? : Json → Option Bool
  | .bool b => some b
  | _ => none

/-- A natural number of 64 bits. -/
def asCount? : Json → Option Nat
  | .int i => if fitsUnsigned i then some i.toNat else none
  | _ => none

/-- The items of an array, each read. -/
def asList? {β : Type} (read : Json → Option β) : Json → Option (List β)
  | .array items => items.mapM read
  | _ => none

/-- What is read of a value that may be null. -/
def asOptional? {β : Type} (read : Json → Option β) (j : Json) : Option (Option β) :=
  if j.isNull then some none else (read j).map some

/-- A word: written as a string, or as the name of null. -/
def asWord? : Json → Option String
  | .string s => some s
  | .object [(s, .null)] => some s
  | _ => none

/-- Whether each of the names occurs at most once. -/
def isRecord (names : List String) (members : List (String × Json)) : Bool :=
  names.all fun name => (members.filter (·.1 == name)).length ≤ 1

/-- The members of a record with the given names. -/
def asRecord? (names : List String) : Json → Option (List (String × Json))
  | .object members => if isRecord names members then some members else none
  | .array items => if items.length ≤ names.length then some (names.zip items) else none
  | _ => none

/-- Reads a member that may be missing. -/
def member? {β : Type} (members : List (String × Json)) (name : String) (read : Json → Option β)
    (missing : Option β) : Option β :=
  match members.lookup name with
  | some j => read j
  | none => missing

end Json

end Dataflow

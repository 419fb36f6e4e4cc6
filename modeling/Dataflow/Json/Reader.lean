import Dataflow.Json.Basic
import Dataflow.Json.Fault
import Dataflow.Text.Basic

/-!
# Reading JSON

Numbers without point and exponent that fit 64 bits are integers. All others are computed as a
64-bit integer significand, whose digits beyond that width are dropped, times a power of ten; that
product is rounded a second time, and one that is infinite is not held. Neither is a string with one
of the two halves of a character, nor what is nested too deeply. `read` stops at what is not held;
`scan?` is lenient and keeps a mark in its place.
-/

namespace Dataflow.Json

/-! ## Steps -/

/-- What a step has taken from the front of a text, and what is behind it. -/
abbrev Taken (α : Type) : Type := α × List Char

/-- Stops in front of a text. -/
def stopBefore {α : Type} (cause : Cause) (text : List Char) : Except Stop α :=
  .error { cause, left := byteCount text }

/-- Stops at the first byte of a text, which counts as looked at, or at its end. -/
def stopAt {α : Type} (cause : Cause) (text : List Char) : Except Stop α :=
  .error { cause, left := byteCount text - 1 }

/-- Stops at the end of the whole text. -/
def stopAtEnd {α : Type} (cause : Cause) : Except Stop α := stopBefore cause []

/-- Blanks between tokens. -/
def isSpace (c : Char) : Bool := c == ' ' || c == '\n' || c == '\t' || c == '\r'

def skipSpace (text : List Char) : List Char := text.dropWhile isSpace

/-! ## Numbers -/

/-- The largest significand. -/
def maxSignificand : Nat := twoPow 64 - 1

/-- The largest exponent; with a larger one a number is infinite or zero. -/
def maxExponent : Nat := twoPow 31 - 1

/-- Adds digits to a number up to a limit; returns it with how many digits were added and how many
were left over. -/
def addDigits (limit : Nat) : List Char → Nat → Nat → Nat × Nat × Nat
  | [], n, added => (n, added, 0)
  | d :: rest, n, added =>
    let next := n * 10 + Text.digitValue d
    if next > limit then (n, added, rest.length + 1) else addDigits limit rest next (added + 1)

/-- `10 ^ n` as a number. -/
def power (n : Nat) : Double := .ofRatio false (tenPow n) 1

/-- The largest power of ten that is a number. -/
def maxPower : Nat := 308

/-- Divides by `10 ^ n`, in several steps if that is no number. A step that leaves zero is the
last. -/
def divideByPower (x : Double) (n : Nat) : Double :=
  if n ≤ maxPower then x.div (power n)
  else if x.isZero then x
  else divideByPower (x.div (power maxPower)) (n - maxPower)
termination_by n
decreasing_by simp only [maxPower] at *; omega

/-- A significand times a power of ten; none if it is infinite. -/
def scaled? (significand : Nat) (exponent : Int) : Option Double :=
  let x : Double := .ofInt significand
  if exponent < 0 then some (divideByPower x exponent.natAbs)
  else if exponent > maxPower then if x.isZero then some x else none
  else
    let y := x.mul (power exponent.toNat)
    if y.isInfinite then none else some y

/-- The value of a number with the given integer digits, digits behind the point, if there is one,
and signed exponent digits, if there are any. Where it is infinite, the number of digits that did
not matter any more for that. -/
def numberValue (whole : List Char) (places : Option (List Char))
    (exponent : Option (Bool × List Char)) : Except Nat Double :=
  let (n, _, skipped) := addDigits maxSignificand whole 0 0
  let (n, added, _) := addDigits maxSignificand (places.getD []) n 0
  let start : Int := (skipped : Int) - added
  let scaled (e : Int) : Except Nat Double := ((scaled? n e).map Except.ok).getD (.error 0)
  match exponent with
  | none => scaled start
  | some (minus, ds) =>
    match addDigits maxExponent ds 0 0 with
    | (e, _, 0) =>
      let e := start + (if minus then -(e : Int) else e)
      scaled (max (min e maxExponent) (-(maxExponent : Int) - 1))
    | (_, _, excess + 1) => if n = 0 || minus then .ok (.zero false) else .error excess

/-- The digits at the front of a text and what is behind them. -/
def spanDigits (text : List Char) : List Char × List Char :=
  (text.takeWhile Char.isDigit, text.dropWhile Char.isDigit)

/-- Takes the digits of the integer part. Only zero begins with the digit zero. -/
def takeWhole (text : List Char) : Except Stop (Taken (List Char)) :=
  match spanDigits text with
  | ([], []) => stopAtEnd .endInValue
  | ([], rest) => stopAt .badNumber rest
  | ('0' :: d :: ds, rest) => stopAt .badNumber (d :: ds ++ rest)
  | (ds, rest) => .ok (ds, rest)

/-- Takes an optional part behind a point. -/
def takeFraction (text : List Char) : Except Stop (Taken (Option (List Char))) :=
  match text with
  | '.' :: rest =>
    match spanDigits rest with
    | ([], []) => stopAtEnd .endInValue
    | ([], rest) => stopAt .badNumber rest
    | (ds, rest) => .ok (some ds, rest)
  | _ => .ok (none, text)

/-- Takes an optional exponent. -/
def takeExponent (text : List Char) : Except Stop (Taken (Option (Bool × List Char))) :=
  match text with
  | [] => .ok (none, [])
  | c :: rest =>
    if c == 'e' || c == 'E' then
      let (minus, rest) := Decimal.splitSign rest
      match spanDigits rest with
      | ([], []) => stopAtEnd .endInValue
      | ([], rest) => stopAt .badNumber rest
      | (ds, rest) => .ok (some (minus, ds), rest)
    else .ok (none, text)

/-- A number from its parts. An integer that fits 64 bits is kept as one, but for minus zero. -/
def ofNumber (minus : Bool) (whole : List Char) (places : Option (List Char))
    (exponent : Option (Bool × List Char)) : Except Nat Json :=
  let n := whole.foldl (fun n d => n * 10 + Text.digitValue d) 0
  let signed (x : Double) : Json := .double (if minus then x.neg else x)
  match places, exponent with
  | none, none =>
    if !minus && n < twoPow 64 then .ok (.int n)
    else if minus && 0 < n && n ≤ twoPow 63 then .ok (.int (-(n : Int)))
    else (numberValue whole none none).map signed
  | _, _ => (numberValue whole places exponent).map signed

/-- Takes a number; a lenient reader passes over one that is out of range. -/
def takeNumber (lenient : Bool) (text : List Char) : Except Stop (Taken Json) := do
  let (minus, rest) := match text with
    | '-' :: rest => (true, rest)
    | rest => (false, rest)
  let (whole, rest) ← takeWhole rest
  let (places, rest) ← takeFraction rest
  let (exponent, rest) ← takeExponent rest
  match ofNumber minus whole places exponent with
  | .ok j => return (j, rest)
  | .error digits =>
    if lenient then return (.unheld, rest)
    else throw { cause := .outOfRange, left := byteCount rest + digits }

/-! ## Strings -/

/-- The value of four hexadecimal digits. -/
def hex4? (a b c d : Char) : Option Nat := do
  return (((← Text.hexValue? a) * 16 + (← Text.hexValue? b)) * 16 + (← Text.hexValue? c)) * 16 +
    (← Text.hexValue? d)

/-- The character that a letter behind a backslash stands for. -/
def escape? : Char → Option Char
  | '"' => some '"'
  | '\\' => some '\\'
  | '/' => some '/'
  | 'b' => some (Char.ofNat 8)
  | 'f' => some (Char.ofNat 12)
  | 'n' => some '\n'
  | 'r' => some '\r'
  | 't' => some '\t'
  | _ => none

/-- Puts a character in front of what was read. -/
def prepend (c : Char) (step : Except Stop (Taken (Option (List Char)))) :
    Except Stop (Taken (Option (List Char))) :=
  step.map fun (cs, rest) => (cs.map (c :: ·), rest)

/-- Drops what was read. -/
def dropped {α : Type} (step : Except Stop (Taken (Option α))) : Except Stop (Taken (Option α)) :=
  step.map fun (_, rest) => (none, rest)

/-- Whether a code unit is the first half of a character, and whether it is the second. -/
def isFirstHalf (unit : Nat) : Bool := 0xD800 ≤ unit && unit < 0xDC00
def isSecondHalf (unit : Nat) : Bool := 0xDC00 ≤ unit && unit < 0xE000

/-- The character of two halves. -/
def ofHalves (first second : Nat) : Char :=
  .ofNat (0x10000 + (first - 0xD800) * 0x400 + (second - 0xDC00))

/-- Stops where four hexadecimal digits are expected and not there. -/
def stopAtDigits {α : Type} (text : List Char) : Except Stop α :=
  if byteCount text < 4 then stopAtEnd .endInString
  else .error { cause := .badEscape, left := byteCount text - 4 }

/-- Stops where the second half of a character is expected and not there. -/
def stopAtHalf {α : Type} : List Char → Except Stop α
  | [] | ['\\'] => stopAtEnd .endInString
  | '\\' :: 'u' :: rest => stopAtDigits rest
  | '\\' :: rest => stopAt .missingHalf rest
  | rest => stopAt .missingHalf rest

/-- Takes the rest of a string and its closing quote. Characters beyond 16 bits are given by two
halves, which have to stand together; a lenient reader goes on behind half a character, but the
string is not held. -/
def stringTail (lenient : Bool) : List Char → Except Stop (Taken (Option (List Char)))
  | [] | ['\\'] => stopAtEnd .endInString
  | '"' :: rest => .ok (some [], rest)
  | '\\' :: 'u' :: a :: b :: c :: d :: rest =>
    match hex4? a b c d with
    | none => stopAtDigits (a :: b :: c :: d :: rest)
    | some unit =>
      if isFirstHalf unit then
        match rest with
        | '\\' :: 'u' :: a :: b :: c :: d :: behind =>
          match hex4? a b c d with
          | none => stopAtDigits (a :: b :: c :: d :: behind)
          | some second =>
            if isSecondHalf second then
              prepend (ofHalves unit second) (stringTail lenient behind)
            else if lenient then
              dropped (stringTail lenient ('\\' :: 'u' :: a :: b :: c :: d :: behind))
            else stopBefore .strayHalf behind
        | rest => if lenient then dropped (stringTail lenient rest) else stopAtHalf rest
      else if isSecondHalf unit then
        if lenient then dropped (stringTail lenient rest) else stopBefore .strayHalf rest
      else prepend (Char.ofNat unit) (stringTail lenient rest)
  | '\\' :: 'u' :: rest => stopAtDigits rest
  | '\\' :: c :: rest =>
    match escape? c with
    | none => stopAt .badEscape (c :: rest)
    | some c => prepend c (stringTail lenient rest)
  | c :: rest =>
    if c.toNat < 0x20 then stopAt .controlCharacter (c :: rest)
    else prepend c (stringTail lenient rest)

/-- Takes the given letters. -/
def takeLetters : List Char → List Char → Except Stop (List Char)
  | [], text => .ok text
  | _ :: _, [] => stopAtEnd .endInValue
  | l :: ls, c :: rest => if c = l then takeLetters ls rest else stopAt .unknownWord (c :: rest)

/-- Takes the given word. -/
def takeWord (w : String) (j : Json) (text : List Char) : Except Stop (Taken Json) := do
  return (j, ← takeLetters w.toList text)

/-! ## Values -/

/-- A value made of what was taken. -/
def holding {α : Type} (make : α → Json) (taken : Option α) : Json := (taken.map make).getD .unheld

/-- Takes a string that is a value. -/
def takeString (lenient : Bool) (rest : List Char) : Except Stop (Taken Json) := do
  let (cs, rest) ← stringTail lenient rest
  return (holding (fun cs => .string (String.ofList cs)) cs, rest)

/-- Takes the name of a member and the colon behind it. -/
def takeName (lenient : Bool) : List Char → Except Stop (Taken (Option String))
  | '"' :: rest => do
    let (cs, rest) ← stringTail lenient rest
    match skipSpace rest with
    | ':' :: rest => return (cs.map String.ofList, rest)
    | [] => stopAtEnd .endInObject
    | rest => stopAt .missingColon rest
  | rest => stopAt .nameNotText rest

/-- A member in front of others; none if its name or they are not held. -/
def consMember (name : Option String) (j : Json) (ms : Option (List (String × Json))) :
    Option (List (String × Json)) := do
  return (← name, j) :: (← ms)

mutual

/-- Takes a value; `depth` more levels may be opened, and what is opened behind them is not held.
Every call takes at least one character, so that the length of the text bounds the number of
calls. -/
def takeValue (lenient : Bool) (depth : Nat) : (calls : Nat) → List Char → Except Stop (Taken Json)
  | 0, _ => stopAtEnd .endInValue
  | calls + 1, text =>
    match skipSpace text with
    | [] => stopAtEnd .endInValue
    | '[' :: rest => do
      if depth = 0 && !lenient then stopAt .tooDeep ('[' :: rest)
      let (js, rest) ← match skipSpace rest with
        | [] => stopAtEnd .endInArray
        | ']' :: rest => .ok ([], rest)
        | rest => takeItems lenient (depth - 1) calls rest
      return (if depth = 0 then .unheld else .array js, rest)
    | '\x7b' :: rest => do
      if depth = 0 && !lenient then stopAt .tooDeep ('\x7b' :: rest)
      let (ms, rest) ← match skipSpace rest with
        | [] => stopAtEnd .endInObject
        | '\x7d' :: rest => .ok (some [], rest)
        | rest => takeMembers lenient (depth - 1) calls rest
      return (if depth = 0 then .unheld else holding .object ms, rest)
    | '"' :: rest => takeString lenient rest
    | 't' :: rest => takeWord "rue" (.bool true) rest
    | 'f' :: rest => takeWord "alse" (.bool false) rest
    | 'n' :: rest => takeWord "ull" .null rest
    | c :: rest =>
      if c = '-' || c.isDigit then takeNumber lenient (c :: rest) else stopAt .noValue (c :: rest)

/-- Takes the items of an array that is not empty, and its end. -/
def takeItems (lenient : Bool) (depth : Nat) :
    (calls : Nat) → List Char → Except Stop (Taken (List Json))
  | 0, _ => stopAtEnd .endInArray
  | calls + 1, text => do
    let (j, rest) ← takeValue lenient depth calls text
    match skipSpace rest with
    | [] => stopAtEnd .endInArray
    | ']' :: rest => return ([j], rest)
    | ',' :: rest =>
      match skipSpace rest with
      | ']' :: rest => stopAt .trailingComma (']' :: rest)
      | rest =>
        let (js, rest) ← takeItems lenient depth calls rest
        return (j :: js, rest)
    | rest => stopAt .arrayNotGoingOn rest

/-- Takes the members of an object that is not empty, and its end. -/
def takeMembers (lenient : Bool) (depth : Nat) :
    (calls : Nat) → List Char → Except Stop (Taken (Option (List (String × Json))))
  | 0, _ => stopAtEnd .endInObject
  | calls + 1, text => do
    let (name, rest) ← takeName lenient text
    let (j, rest) ← takeValue lenient depth calls rest
    match skipSpace rest with
    | [] => stopAtEnd .endInObject
    | '\x7d' :: rest => return (consMember name j (some []), rest)
    | ',' :: rest =>
      match skipSpace rest with
      | [] => stopAtEnd .endInValue
      | '\x7d' :: rest => stopAt .trailingComma ('\x7d' :: rest)
      | rest =>
        let (ms, rest) ← takeMembers lenient depth calls rest
        return (consMember name j ms, rest)
    | rest => stopAt .objectNotGoingOn rest

end

/-- Arrays and objects may be open at the same time up to this number. -/
def depthLimit : Nat := 127

/-- The value that a whole text is. -/
def takeAll (lenient : Bool) (text : List Char) : Except Stop Json := do
  let (j, rest) ← takeValue lenient depthLimit (text.length + 1) text
  match skipSpace rest with
  | [] => return j
  | rest => stopAt .trailingText rest

/-- The value that a text is, if all of it is held. -/
def read (text : List Char) : Except Fault Json := (takeAll false text).mapError (Stop.fault text)

/-- What a text says, with marks in place of what is not held. -/
def scan? (text : List Char) : Option Json := (takeAll true text).toOption

end Dataflow.Json

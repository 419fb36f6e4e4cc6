import Dataflow.Number.Width

/-!
# Text

Operations on text as lists of characters, with the rules that the rest of the library relies on:
blank characters are those of the Unicode property `White_Space`, and letter case is a matter of the
ASCII letters only.
-/

namespace Dataflow.Text

/-- The characters of the Unicode property `White_Space`. -/
def isBlank (c : Char) : Bool :=
  let n := c.toNat
  (9 ≤ n && n ≤ 13) || n == 0x20 || n == 0x85 || n == 0xA0 || n == 0x1680 ||
    (0x2000 ≤ n && n ≤ 0x200A) || n == 0x2028 || n == 0x2029 || n == 0x202F || n == 0x205F ||
    n == 0x3000

/-- Drops the characters at the end that satisfy a test. -/
def dropEnd (test : Char → Bool) : List Char → List Char
  | [] => []
  | c :: rest =>
    match dropEnd test rest with
    | [] => if test c then [] else [c]
    | kept => c :: kept

/-- Drops blank characters at both ends. -/
def trimmed (text : List Char) : List Char := dropEnd isBlank (text.dropWhile isBlank)

/-- Drops blank characters at both ends. -/
def trim (s : String) : String := String.ofList (trimmed s.toList)

/-- Replaces capital ASCII letters by small ones. -/
def lower (s : String) : String := String.ofList (s.toList.map Char.toLower)

/-- Whether two texts differ at most in the case of ASCII letters. -/
def sameLetters (s t : String) : Bool := lower s == lower t

/-- The parts between the separators; one more than there are separators. -/
def splitOn (separator : Char) : List Char → List (List Char)
  | [] => [[]]
  | c :: rest =>
    if c = separator then [] :: splitOn separator rest
    else match splitOn separator rest with
      | [] => [[c]]
      | part :: parts => (c :: part) :: parts

/-- The texts before and after the first occurrence of `mark`. -/
def splitOnce (mark : List Char) : List Char → Option (List Char × List Char)
  | [] => if mark.isEmpty then some ([], []) else none
  | c :: rest =>
    if mark.isPrefixOf (c :: rest) then some ([], (c :: rest).drop mark.length)
    else (splitOnce mark rest).map fun (before, behind) => (c :: before, behind)

/-- The text behind the last occurrence of `mark`, if there is one. -/
def behindLast? (mark : List Char) : List Char → Option (List Char)
  | [] => none
  | c :: rest =>
    match behindLast? mark rest with
    | some tail => some tail
    | none => if mark.isPrefixOf (c :: rest) then some ((c :: rest).drop mark.length) else none

/-- The lines of a text; a carriage return before the end of a line belongs to the line end. -/
def lines (text : List Char) : List (List Char) :=
  let parts := splitOn '\n' text
  let last := parts.getLastD []
  let ended := parts.dropLast.map fun line =>
    if line.getLast? = some '\r' then line.dropLast else line
  if last.isEmpty then ended else ended ++ [last]

/-- The value of a decimal digit. -/
def digitValue (c : Char) : Nat := c.toNat - '0'.toNat

/-- The value of a hexadecimal digit. -/
def hexValue? (c : Char) : Option Nat :=
  if c.isDigit then some (digitValue c)
  else if 'a' ≤ c ∧ c ≤ 'f' then some (c.toNat - 'a'.toNat + 10)
  else if 'A' ≤ c ∧ c ≤ 'F' then some (c.toNat - 'A'.toNat + 10)
  else none

/-- Reads a natural number below `2 ^ 64`; a plus sign may stand before it. -/
def readCount? (text : String) : Option Nat :=
  let digits := match text.toList with
    | '+' :: rest => rest
    | all => all
  if digits.isEmpty || !digits.all Char.isDigit then none
  else
    let n := digits.foldl (fun n c => n * 10 + digitValue c) 0
    if n < twoPow 64 then some n else none

/-- Texts with a separator between them. -/
def join (separator : String) (parts : List String) : String := separator.intercalate parts

end Dataflow.Text

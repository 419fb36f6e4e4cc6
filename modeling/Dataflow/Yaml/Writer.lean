import Dataflow.Yaml.Value

/-!
# Writing YAML

`Value.text` writes a value over several lines, so that it can be read back. Collections are written
by indentation, empty ones with brackets. Text is written plain where it would be read back as the
same text, else in quotes; text of several lines is written as a block.
-/

namespace Dataflow.Yaml

/-! ## How text may be written -/

/-- What matters of a text for the choice of quotes. -/
structure Features where
  /-- Whether it would be taken for something else without quotes. -/
  marks : Bool := false
  /-- Whether it has characters that have to be escaped. -/
  special : Bool := false
  breaks : Bool := false
  /-- Whether a blank or a line end is at its start or at its end. -/
  leadingSpace : Bool := false
  trailingSpace : Bool := false
  leadingBreak : Bool := false
  trailingBreak : Bool := false
  /-- Whether a line begins with a blank. -/
  breakSpace : Bool := false
  /-- Whether a line ends with a blank. -/
  spaceBreak : Bool := false
deriving Repr

/-- Characters that are written as they are. -/
def isPrintable (c : Char) : Bool :=
  let n := c.toNat
  n == 10 || (0x20 ≤ n && n ≤ 0x7E) || (0xA0 ≤ n && n ≤ 0xD7FF) ||
    (0xE000 ≤ n && n ≤ 0xFFFD && n != 0xFEFF) || 0x10000 ≤ n

/-- Whether a character takes part in the structure of a document at the start of a text. -/
def isMarkAtStart (c : Char) (rest : List Char) : Bool :=
  "#,[]\x7b\x7d&*!|>'\"%@\x60".toList.contains c || ("?:-".toList.contains c && endsWord rest)

/-- Whether a character takes part in the structure of a document inside a text. -/
def isMarkInside (before c : Char) (rest : List Char) : Bool :=
  (c == ':' && endsWord rest) || (c == '#' && (isBlank before || isBreak before))

/-- What matters of the rest of a text behind a character. -/
def featuresBehind : Char → List Char → Features → Features
  | before, [], f =>
    { f with trailingSpace := before == ' ', trailingBreak := isBreak before }
  | before, c :: rest, f =>
    featuresBehind c rest { f with
      marks := f.marks || isMarkInside before c rest
      special := f.special || !isPrintable c
      breaks := f.breaks || isBreak c
      breakSpace := f.breakSpace || (isBreak before && c == ' ')
      spaceBreak := f.spaceBreak || (before == ' ' && isBreak c) }

/-- What matters of a text. -/
def Features.of : List Char → Features
  | [] => {}
  | c :: rest =>
    featuresBehind c rest {
      marks := isMarkAtStart c rest || beginsLikeMark (c :: rest)
      special := !isPrintable c
      breaks := isBreak c
      leadingSpace := c == ' '
      leadingBreak := isBreak c }

/-- How text is written. -/
inductive Style where
  | plain
  | single
  | double
  | block
deriving DecidableEq, Repr

/-- Whether text would not be read back as text if it were plain; digits behind a zero are text only
to some readers. -/
def isAmbiguous (s : String) : Bool :=
  Value.hasLeadingZero (Decimal.splitSign s.toList).2 ||
    (match Value.ofPlain s with
      | .ok (.string _) => false
      | _ => true)

/-- How a text is written. A key in front of a colon takes up no more than one line. -/
def styleOf (key : Bool) (s : String) : Style :=
  let f := Features.of s.toList
  let quotable := !(f.breakSpace || f.spaceBreak || f.special)
  let quoted := if quotable then Style.single else .double
  if s.toList.contains '\n' then
    if key || f.trailingSpace || f.spaceBreak || f.special then .double else .block
  else if key && f.breaks then .double
  else if isAmbiguous s then quoted
  else if f.marks || f.breaks || f.leadingSpace || f.trailingSpace || !quotable then quoted
  else .plain

/-! ## Text -/

/-- Blanks for an indentation. -/
def blanks (n : Nat) : String := String.ofList (List.replicate n ' ')

/-- Text inside single quotes, in which the quote is written twice. `broke` if it follows the end of
a line; what comes next in the new line is indented. -/
def singleQuotedTail (indent : Nat) : (broke : Bool) → List Char → List Char
  | broke, [] => if broke then List.replicate indent ' ' else []
  | broke, c :: rest =>
    if isBreak c then c :: singleQuotedTail indent true rest
    else
      (if broke then List.replicate indent ' ' else []) ++ (if c = '\'' then ['\'', c] else [c]) ++
        singleQuotedTail indent false rest

/-- Text in single quotes. -/
def singleQuoted (indent : Nat) (s : String) : String :=
  "'" ++ String.ofList (singleQuotedTail indent false s.toList) ++ "'"

/-- Hexadecimal digits in capitals. -/
def hexDigits (width n : Nat) : List Char :=
  let ds := (Nat.toDigits 16 n).map Char.toUpper
  List.replicate (width - ds.length) '0' ++ ds

/-- The letter behind a backslash that stands for a character. -/
def escapeLetter? (c : Char) : Option Char :=
  match c.toNat with
  | 0 => some '0'
  | 7 => some 'a'
  | 8 => some 'b'
  | 9 => some 't'
  | 10 => some 'n'
  | 11 => some 'v'
  | 12 => some 'f'
  | 13 => some 'r'
  | 27 => some 'e'
  | 0x22 => some '"'
  | 0x5C => some '\\'
  | 0x85 => some 'N'
  | 0xA0 => some '_'
  | 0x2028 => some 'L'
  | 0x2029 => some 'P'
  | _ => none

/-- A character in double quotes. -/
def doubleQuotedChar (c : Char) : List Char :=
  if isPrintable c && !isBreak c && c != '"' && c != '\\' then [c]
  else match escapeLetter? c with
    | some letter => ['\\', letter]
    | none =>
      let n := c.toNat
      if n ≤ 0xFF then '\\' :: 'x' :: hexDigits 2 n
      else if n ≤ 0xFFFF then '\\' :: 'u' :: hexDigits 4 n
      else '\\' :: 'U' :: hexDigits 8 n

def doubleQuoted (s : String) : String :=
  "\"" ++ String.ofList (s.toList.flatMap doubleQuotedChar) ++ "\""

/-- The signs behind the mark of a block: its indentation if it cannot be told from its first line,
and what becomes of the line ends at its end. -/
def blockHints (text : List Char) : String :=
  let indentation := match text with
    | c :: _ => if c = ' ' || isBreak c then "2" else ""
    | [] => ""
  let chomping := match text.reverse with
    | c :: rest =>
      if !isBreak c then "-"
      else match rest with
        | [] => "+"
        | d :: _ => if isBreak d then "+" else ""
    | [] => "-"
  indentation ++ chomping

/-- The lines of a block; those that are not empty are indented. -/
def blockLines (indent : Nat) : (atStart : Bool) → List Char → List Char
  | _, [] => []
  | atStart, c :: rest =>
    if isBreak c then c :: blockLines indent true rest
    else (if atStart then List.replicate indent ' ' else []) ++ c :: blockLines indent false rest

/-- A text at a place where blocks are indented by `indent`. -/
def stringText (indent : Nat) (key : Bool) (s : String) : String :=
  match styleOf key s with
  | .plain => s
  | .single => singleQuoted indent s
  | .double => doubleQuoted s
  | .block => "|" ++ blockHints s.toList ++ "\n" ++ String.ofList (blockLines indent true s.toList)

/-! ## Names -/

/-- A byte in a tag. -/
def tagByte (b : UInt8) : List Char :=
  let c := Char.ofNat b.toNat
  if isWordChar c || ";/?:@&=+$,_.~*'()[]".toList.contains c then [c]
  else '%' :: hexDigits 2 b.toNat

/-- The tag that gives a value a name. -/
def tagOf (name : String) : String := if name.toList.head? = some '!' then name else "!" ++ name

/-- A tag as it is written. -/
def tagText (name : String) : String :=
  let bytes (s : List Char) : String :=
    String.ofList ((bytesOf (String.ofList s)).flatMap tagByte)
  match (tagOf name).toList with
  | '!' :: c :: rest => "!" ++ bytes (c :: rest)
  | text => "!<" ++ bytes text ++ ">"

/-! ## Values -/

namespace Value

/-- How YAML numbers are written. -/
def numberStyle : Decimal.Style where
  positional power := -5 ≤ power && power < 16
  pointZero := true
  plus := false
  tie := .even
  nan := ".nan"
  infinity := ".inf"
  negativeInfinity := "-.inf"

/-- The longest text that is written as a key in front of a colon. -/
def maxKeySize : Nat := 128

/-- Whether a value is written as a key in front of a colon; its name takes up `size` bytes. -/
def isSimpleKey (size : Nat) : Value → Bool
  | .string s => size + s.utf8ByteSize ≤ maxKeySize && !(Features.of s.toList).breaks
  | .sequence items => items.isEmpty && size ≤ maxKeySize
  | .mapping entries => entries.isEmpty && size ≤ maxKeySize
  | .named name v => isSimpleKey (size + (tagOf name).utf8ByteSize) v
  | .null => size + 4 ≤ maxKeySize
  | .bool b => size + (toString b).length ≤ maxKeySize
  | .int i => size + (toString i).length ≤ maxKeySize
  | .minusZero => size + 1 ≤ maxKeySize
  | .double x => size + (x.text numberStyle).length ≤ maxKeySize

/-- Starts a new line. -/
def newLine (indent : Nat) : String := "\n" ++ blanks indent

/-- Text on a line of its own behind other text, which may have ended its line. -/
def under (indent : Nat) (before after : String) : String :=
  let ended := match before.toList.getLast? with
    | some c => isBreak c
    | none => false
  before ++ (if ended then blanks indent else newLine indent) ++ after

/-- Texts on lines of their own. -/
def joinLines (indent : Nat) : List String → String
  | [] => ""
  | [s] => s
  | s :: rest => under indent s (joinLines indent rest)

mutual

/-- A value that begins at the column `indent`, which its further lines keep to; behind a name a
sequence begins on a line of its own at the column `outer`. `key` if it stands in front of a
colon. -/
def textAt (indent outer : Nat) (key : Bool) : Value → String
  | .null => "null"
  | .bool b => toString b
  | .int i => toString i
  | .minusZero => "0"
  | .double x => x.text numberStyle
  | .string s => stringText indent key s
  | .sequence [] => "[]"
  | .mapping [] => "\x7b\x7d"
  | .sequence (v :: rest) => joinLines indent (itemTexts indent (v :: rest))
  | .mapping (e :: rest) => joinLines indent (entryTexts indent (e :: rest))
  | .named name v => tagText name ++ textBehind indent outer key v
termination_by structural x => x

/-- The items of a sequence, each behind a dash. -/
def itemTexts (indent : Nat) : List Value → List String
  | [] => []
  | v :: rest => ("- " ++ textAt (indent + 2) (indent + 2) false v) :: itemTexts indent rest
termination_by structural x => x

/-- The entries of a mapping. A key that does not fit in front of a colon stands behind a question
mark. -/
def entryTexts (indent : Nat) : List (Value × Value) → List String
  | [] => []
  | (k, v) :: rest =>
    let keyText := textAt (indent + 2) indent (isSimpleKey 0 k) k
    let entry :=
      if isSimpleKey 0 k then keyText ++ ":" ++ textBehind (indent + 2) indent false v
      else under indent ("? " ++ keyText) (": " ++ textAt (indent + 2) indent false v)
    entry :: entryTexts indent rest
termination_by structural x => x

/-- A value behind a colon or a name. A collection begins on a line of its own: a sequence at the
column `outer`, a mapping at the column `indent`. -/
def textBehind (indent outer : Nat) (key : Bool) : Value → String
  | .sequence (v :: rest) => newLine outer ++ joinLines outer (itemTexts outer (v :: rest))
  | .mapping (e :: rest) => newLine indent ++ joinLines indent (entryTexts indent (e :: rest))
  | .null => " null"
  | .bool b => " " ++ toString b
  | .int i => " " ++ toString i
  | .minusZero => " 0"
  | .double x => " " ++ x.text numberStyle
  | .string s => " " ++ stringText indent key s
  | .sequence [] => " []"
  | .mapping [] => " \x7b\x7d"
  | .named name v => " " ++ tagText name ++ textBehind indent outer key v
termination_by structural x => x

end

/-- Whether a value begins in a way that a name could begin. -/
def beginsLikeName : Value → Bool
  | .mapping [_] => true
  | .named _ _ => true
  | _ => false

mutual

/-- Whether a value can be written. A name and its value are written like the only entry of a
mapping, and which of the two it is has to be clear from the key: such a key cannot begin like that
again, unless the mapping has a name before it. -/
def isWritable (behindName : Bool) : Value → Bool
  | .sequence items => areWritable items
  | .mapping [(k, v)] =>
    (behindName || !beginsLikeName k) && isWritable false k && isWritable false v
  | .mapping entries => entriesWritable entries
  | .named _ v => isWritable true v
  | _ => true
termination_by structural x => x

def areWritable : List Value → Bool
  | [] => true
  | v :: rest => isWritable false v && areWritable rest
termination_by structural x => x

def entriesWritable : List (Value × Value) → Bool
  | [] => true
  | (k, v) :: rest => isWritable false k && isWritable false v && entriesWritable rest
termination_by structural x => x

end

/-- The text of a value, without blanks around it; nothing if it cannot be written. A text that is
the whole value is indented like one in a collection. -/
def text (v : Value) : String :=
  match v with
  | .string s => Text.trim (stringText 2 false s)
  | .named name (.string s) => Text.trim (tagText name ++ " " ++ stringText 2 false s)
  | v => if v.isWritable false then Text.trim (textAt 0 0 false v) else ""

end Value

end Dataflow.Yaml

import Dataflow.Text.Basic
import Dataflow.Text.Utf8
import Dataflow.Yaml.Character

/-!
# Tags and anchors

A tag says what a node is. It is written as a handle, which stands for the beginning that a
directive gave it, and a suffix; in the suffix bytes may be written as a percent sign and two
hexadecimal digits. Of the tags that YAML itself defines only those for scalars matter, since a
collection is known by its form. A tag of the text's own, which begins with an exclamation mark,
gives a node a name.
-/

namespace Dataflow.Yaml

/-- What a tag says of a node. -/
inductive Tag where
  | bool
  | int
  | float
  | null
  /-- A name of the text's own. -/
  | name (word : String)
  /-- The exclamation mark alone: no tag on a scalar, else a name. -/
  | mark
  /-- A name of the text's own that is no text. -/
  | unreadable
  | other
deriving DecidableEq, Repr, Inhabited

namespace Tag

/-- What the tags that YAML defines begin with. -/
def yamlSpace : String := "tag:yaml.org,2002:"

/-- A word without the exclamation mark before it; the mark alone is a word. -/
def withoutMark (word : String) : String :=
  match word.toList with
  | '!' :: c :: rest => String.ofList (c :: rest)
  | _ => word

/-- The tag with a text. -/
def ofText (text : String) : Tag :=
  if text = "!" then .mark
  else if text.toList.head? = some '!' then .name (withoutMark (withoutMark text))
  else if text = yamlSpace ++ "bool" then .bool
  else if text = yamlSpace ++ "int" then .int
  else if text = yamlSpace ++ "float" then .float
  else if text = yamlSpace ++ "null" then .null
  else .other

/-- The name that a tag gives a node. -/
def word? : Tag → Option String
  | .name word => some word
  | .mark => some "!"
  | _ => none

/-- The tag that is written with these bytes, up to a zero. -/
def ofBytes (bytes : List UInt8) : Tag :=
  let bytes := bytes.takeWhile (· ≠ 0)
  match Text.ofBytes? bytes with
  | some text => ofText text
  | none => if bytes.head? = some '!'.toUInt8 then .unreadable else .other

end Tag

/-- Handles, each with the bytes that it stands for. -/
abbrev Handles := List (String × List UInt8)

/-- The bytes of a text. -/
def bytesOf (text : String) : List UInt8 := text.toUTF8.toList

/-- What handles stand for where no directive says it. -/
def defaultHandles : Handles := [("!", bytesOf "!"), ("!!", bytesOf Tag.yamlSpace)]

/-! ## Words and suffixes -/

/-- Characters of anchors, handles and the names of directives. -/
def isWordChar (c : Char) : Bool := c.isAlphanum || c == '_' || c == '-'

/-- Characters of a suffix. Brackets and commas belong to it only where it cannot end there. -/
def isSuffixChar (wide : Bool) (c : Char) : Bool :=
  isWordChar c || ";/?:@&=+$.!~*'()".toList.contains c || (wide && [',', '[', ']'].contains c)

/-- How many bytes follow the first byte of a character. -/
def trailingBytes? (b : Nat) : Option Nat :=
  if b < 0x80 then some 0
  else if b / 0x20 = 6 then some 1
  else if b / 0x10 = 0xE then some 2
  else if b / 8 = 0x1E then some 3
  else none

/-- The byte that two hexadecimal digits give. It has to begin a character or, where `pending` bytes
are still to come, to continue one. Returns also how many are to come behind it. -/
def escapedByte? (pending : Nat) (high low : Char) : Option (UInt8 × Nat) := do
  let b := (← Text.hexValue? high) * 16 + (← Text.hexValue? low)
  match pending with
  | 0 => return (b.toUInt8, ← trailingBytes? b)
  | pending + 1 => if b / 0x40 = 2 then some (b.toUInt8, pending) else none

/-- What was taken of a text, and what is left. -/
structure Part (α : Type) where
  part : α
  rest : List Char
  pos : Place

/-- Takes a suffix: its bytes. -/
def takeSuffix (wide : Bool) :
    List Char → Place → (pending : Nat) → (reversed : List UInt8) → Outcome (Part (List UInt8))
  | '%' :: high :: low :: rest, pos, pending, out =>
    match escapedByte? pending high low with
    | some (b, pending) =>
      takeSuffix wide rest (pos.after ['%', high, low]) pending (b :: out)
    | none => .error .tag
  | _, _, _ + 1, _ => .error .tag
  | [], pos, 0, out => .ok ⟨out.reverse, [], pos⟩
  | c :: rest, pos, 0, out =>
    if c = '%' then .error .tag
    else if isSuffixChar wide c then takeSuffix wide rest (pos.next c) 0 (c.toUInt8 :: out)
    else .ok ⟨out.reverse, c :: rest, pos⟩

/-- Takes characters as long as they satisfy a test. -/
def takeChars (test : Char → Bool) (text : List Char) (pos : Place) : Part (List Char) :=
  let word := text.takeWhile test
  ⟨word, text.dropWhile test, pos.after word⟩

/-- Takes a suffix that is not empty. -/
def takeSuffix1 (wide : Bool) (text : List Char) (pos : Place) : Outcome (Part (List UInt8)) := do
  let suffix ← takeSuffix wide text pos 0 []
  if suffix.part.isEmpty then .error .tag else .ok suffix

/-! ## Tags -/

/-- What a handle stands for. -/
def Handles.get (handles : Handles) (handle : String) : Outcome (List UInt8) :=
  match (handles ++ defaultHandles).lookup handle with
  | some bytes => .ok bytes
  | none => .error .tagHandle

/-- Takes the bytes of a tag whose exclamation mark was taken. The mark alone stands for itself. -/
def takeTagBytes (handles : Handles) (text : List Char) (pos : Place) :
    Outcome (Part (List UInt8)) := do
  match text with
  | '<' :: rest =>
    let suffix ← takeSuffix1 true rest (pos.next '<')
    match suffix.rest with
    | '>' :: rest => return ⟨suffix.part, rest, suffix.pos.next '>'⟩
    | _ => throw .tag
  | _ =>
    let word := takeChars isWordChar text pos
    match word.rest with
    | '!' :: rest =>
      let suffix ← takeSuffix1 false rest (word.pos.next '!')
      let start ← handles.get ("!" ++ String.ofList word.part ++ "!")
      return { suffix with part := start ++ suffix.part }
    | _ =>
      let suffix ← takeSuffix false text pos 0 []
      if suffix.part.head?.getD 0 = 0 then return { suffix with part := bytesOf "!" }
      return { suffix with part := (← handles.get "!") ++ suffix.part }

/-- Takes a tag whose exclamation mark was taken. A word has to end behind it or, inside brackets,
a comma to follow. -/
def takeTag (handles : Handles) (flow : Bool) (text : List Char) (pos : Place) :
    Outcome (Part Tag) := do
  let bytes ← takeTagBytes handles text pos
  if endsWord bytes.rest || (flow && bytes.rest.head? == some ',') then
    return { bytes with part := Tag.ofBytes bytes.part }
  else throw .tag

/-! ## Anchors -/

/-- Takes the name of an anchor. -/
def takeAnchor (text : List Char) (pos : Place) : Outcome (Part String) :=
  let word := takeChars isWordChar text pos
  let ended := endsWord word.rest || (match word.rest with
    | c :: _ => "?:,]\x7d%@\x60".toList.contains c
    | [] => true)
  if word.part.isEmpty || !ended then .error .anchor
  else .ok { word with part := String.ofList word.part }

/-! ## Directives -/

/-- What a directive says. -/
inductive Directive where
  | version
  | handle (handle : String) (start : List UInt8)
deriving DecidableEq, Repr, Inhabited

/-- Takes a number of at most nine digits. -/
def takeVersionNumber (text : List Char) (pos : Place) : Outcome (Part Nat) :=
  let digits := takeChars Char.isDigit text pos
  if digits.part.isEmpty || digits.part.length > 9 then .error .directive
  else .ok { digits with part := digits.part.foldl (fun n c => n * 10 + Text.digitValue c) 0 }

/-- Takes the version of YAML that a text keeps to: 1.1 or 1.2. -/
def takeVersion (text : List Char) (pos : Place) : Outcome (Part Directive) := do
  let major ← takeVersionNumber text pos
  match major.rest with
  | '.' :: rest =>
    let minor ← takeVersionNumber rest (major.pos.next '.')
    if major.part = 1 ∧ (minor.part = 1 ∨ minor.part = 2) then
      return ⟨.version, minor.rest, minor.pos⟩
    else throw .directive
  | _ => throw .directive

/-- Takes a handle and what it stands for. -/
def takeHandle (text : List Char) (pos : Place) : Outcome (Part Directive) := do
  let '!' :: text := text | throw .directive
  let word := takeChars isWordChar text (pos.next '!')
  let (handle, rest, pos) ← match word.rest with
    | '!' :: rest =>
      pure ("!" ++ String.ofList word.part ++ "!", rest, word.pos.next '!')
    | rest => if word.part.isEmpty then pure ("!", rest, word.pos) else throw .directive
  let blanks := takeChars isBlank rest pos
  if blanks.part.isEmpty then throw .directive
  let start ← takeSuffix1 true blanks.rest blanks.pos
  if endsWord start.rest then return { start with part := .handle handle start.part }
  else throw .directive

/-- Takes a directive whose percent sign was taken, up to the end of what it says. -/
def takeDirective (text : List Char) (pos : Place) : Outcome (Part Directive) := do
  let name := takeChars isWordChar text pos
  if !endsWord name.rest then throw .directive
  let blanks := takeChars isBlank name.rest name.pos
  match String.ofList name.part with
  | "YAML" => takeVersion blanks.rest blanks.pos
  | "TAG" => takeHandle blanks.rest blanks.pos
  | _ => throw .directive

end Dataflow.Yaml

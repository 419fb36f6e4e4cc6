/-!
# Characters and faults of YAML

The classes of characters that matter for how YAML text is read and written, and places in a text. A
fault is met in text that is no YAML, and in YAML that does not have the shape a reader of it
expects.
-/

namespace Dataflow.Yaml

/-- Why YAML text cannot be used. -/
inductive Fault where
  | character (c : Char)
  | noToken (c : Char)
  | tag
  | tagHandle
  | tagged (wanted : String)
  | anchor
  | unknownAnchor (name : String)
  | repetition
  | directive
  | noValueMark
  | misplaced (what : String)
  | tab
  | flowColon
  | unclosedQuote
  | documentMark
  | escape
  | blockHeader
  | unexpected (wanted : String)
  | manyDocuments
  | tooDeep
  | integerRange (text : String)
  | duplicateKey
  | missingField (name : String)
  | duplicateField (name : String)
  | unknownVariant (word : String) (known : List String)
  | wrongType (found wanted : String)
deriving DecidableEq, Repr, Inhabited

/-- Words in the quotes that set off what is quoted from a text. -/
def marked (word : String) : String := "\x60" ++ word ++ "\x60"

/-- A list of the words that are known. -/
def oneOf : List String → String
  | [] => "there are no variants"
  | [a] => "expected " ++ marked a
  | [a, b] => "expected " ++ marked a ++ " or " ++ marked b
  | many => "expected one of " ++ ", ".intercalate (many.map marked)

def Fault.message : Fault → String
  | .character c => s!"control characters are not allowed: U+{c.toNat}"
  | .noToken c => s!"found character '{c}' that cannot start any token"
  | .tag => "did not find expected tag"
  | .tagHandle => "found undefined tag handle"
  | .tagged wanted => s!"a value with that tag is not {wanted}"
  | .anchor => "did not find expected alphabetic or numeric character"
  | .unknownAnchor name => s!"unknown anchor {name}"
  | .repetition => "repetition limit exceeded"
  | .directive => "found a directive that cannot be used"
  | .noValueMark => "could not find expected ':'"
  | .misplaced what => s!"{what} are not allowed in this context"
  | .tab => "found a tab character where an indentation space is expected"
  | .flowColon => "found unexpected ':'"
  | .unclosedQuote => "found unexpected end of stream while scanning a quoted scalar"
  | .documentMark => "found unexpected document indicator"
  | .escape => "found unknown escape character"
  | .blockHeader => "did not find expected comment or line break"
  | .unexpected wanted => s!"did not find expected {wanted}"
  | .manyDocuments => "there is more than one document"
  | .tooDeep => "recursion limit exceeded"
  | .integerRange text => s!"integer {text} is out of range"
  | .duplicateKey => "duplicate entry in a mapping"
  | .missingField name => "missing field " ++ marked name
  | .duplicateField name => "duplicate field " ++ marked name
  | .unknownVariant word known => "unknown variant " ++ marked word ++ ", " ++ oneOf known
  | .wrongType found wanted => s!"invalid type: {found}, expected {wanted}"

/-- The outcome of reading YAML. -/
abbrev Outcome := Except Fault

/-- A mark of byte order, which may begin a line. -/
def byteOrderMark : Char := '\ufeff'

def nextLine : Char := '\u0085'

def lineSeparator : Char := '\u2028'

def paragraphSeparator : Char := '\u2029'

/-- Blanks between words. -/
def isBlank (c : Char) : Bool := c == ' ' || c == '\t'

/-- Ends of lines. -/
def isBreak (c : Char) : Bool :=
  c == '\n' || c == '\r' || c == nextLine || c == lineSeparator || c == paragraphSeparator

/-- Whether a word ends before this text. -/
def endsWord : List Char → Bool
  | [] => true
  | c :: _ => isBlank c || isBreak c

/-- Brackets and commas, which separate what is inside brackets. -/
def isFlowMark (c : Char) : Bool := [',', '[', ']', '\x7b', '\x7d'].contains c

/-- Characters that may occur in YAML text. -/
def isReadable (c : Char) : Bool :=
  let n := c.toNat
  n == 9 || n == 10 || n == 13 || (0x20 ≤ n && n ≤ 0x7E) || n == 0x85 ||
    (0xA0 ≤ n && n ≤ 0xFFFD) || 0x10000 ≤ n

/-- Checks the characters of a text and makes each end of a line one character: carriage returns,
alone or before a line feed, and `U+0085` become line feeds. -/
def normalized : List Char → Outcome (List Char)
  | [] => .ok []
  | '\r' :: '\n' :: rest => do return '\n' :: (← normalized rest)
  | c :: rest =>
    if !isReadable c then .error (.character c)
    else do return (if c = '\r' ∨ c = nextLine then '\n' else c) :: (← normalized rest)

/-- Whether a text begins like the mark of a document start or end. -/
def beginsLikeMark (text : List Char) : Bool :=
  ['-', '-', '-'].isPrefixOf text || ['.', '.', '.'].isPrefixOf text

/-- Whether a text begins with the mark of a document start or end. -/
def isDocumentMark (text : List Char) : Bool := beginsLikeMark text && endsWord (text.drop 3)

/-- A place in a text. -/
structure Place where
  line : Nat := 0
  column : Nat := 0
  /-- How many bytes the text takes up from the start of the line to here. -/
  bytes : Nat := 0
deriving DecidableEq, Repr, Inhabited

/-- The place behind a character. -/
def Place.next (p : Place) (c : Char) : Place :=
  if isBreak c then ⟨p.line + 1, 0, 0⟩ else ⟨p.line, p.column + 1, p.bytes + c.utf8Size⟩

/-- The place behind a text. -/
def Place.after (p : Place) (text : List Char) : Place := text.foldl Place.next p

end Dataflow.Yaml

import Std.Data.TreeMap
import Dataflow.Yaml.Scalar
import Dataflow.Yaml.Tag

/-!
# Tokens and how they are made

`Token.ofText` makes tokens of YAML text. Its state, a `Layout`, knows the columns of the block
collections that are open, how deep in brackets it is, and where a key may begin. That a word is a
key is only known at the colon behind it, so the places of such words are noted, and `key` tokens
are put in front of them at the end. The names of anchors and the handles of tags are looked up as
they are met.
-/

/-!
## Tokens of YAML

What YAML text is made of. Structure that is only shown by indentation has tokens of its own: a
block collection is opened by `blockSequence` or `blockMapping` and closed by `blockEnd`, and the
key of an entry has a `key` token in front of it whether or not the text has a question mark there.
Anchors are numbered, and references have the number of the anchor they name.
-/

namespace Dataflow.Yaml

inductive Token where
  /-- A line in front of a document that says how to read it. -/
  | directive
  | documentStart
  | documentEnd
  | blockSequence
  | blockMapping
  | blockEnd
  | flowSequence
  | flowSequenceEnd
  | flowMapping
  | flowMappingEnd
  | item
  | comma
  | key
  | value
  | anchor (number : Nat)
  | reference (number : Nat)
  | tag (tag : Tag)
  /-- Text; `plain` if it is written without quotes and is not a block of its own. -/
  | scalar (text : String) (plain : Bool)
deriving DecidableEq, Repr, Inhabited

/-! ## Layouts -/

/-- A place where a key may begin. -/
structure Candidate where
  /-- How many tokens were emitted before it. -/
  place : Nat
  /-- Whether it stands where a block mapping must have a key. -/
  required : Bool
  pos : Place
deriving Repr, Inhabited

/-- What is known of a text up to some place. -/
structure Layout where
  pos : Place := {}
  /-- The columns of the open block collections, the innermost first. -/
  columns : List Nat := []
  /-- The candidate outside of all brackets or in the innermost ones. -/
  candidate : Option Candidate := none
  /-- The candidates around each open bracket, the innermost first. -/
  outer : List (Option Candidate) := []
  /-- Whether a key may begin here. -/
  allowed : Bool := true
  /-- The tokens in reverse, and how many they are. -/
  emitted : List Token := []
  count : Nat := 0
  /-- Before which tokens a key begins, and whether a block mapping begins there too. -/
  keys : Std.TreeMap Nat Bool := {}
  /-- The numbers of the anchors by name. -/
  anchors : List (String × Nat) := []
  /-- What directives said: whether there was a version, and what handles stand for. -/
  version : Bool := false
  handles : Handles := []
deriving Inhabited

namespace Layout

/-- A key has to end in the line it began in, and to take up no more than this many bytes. -/
def maxKeySize : Nat := 1024

/-- Whether there are open brackets. -/
def inFlow (l : Layout) : Bool := !l.outer.isEmpty

/-- The column of the innermost open block collection. -/
def column (l : Layout) : Int :=
  match l.columns with
  | [] => -1
  | c :: _ => c

def emit (l : Layout) (t : Token) : Layout :=
  { l with emitted := t :: l.emitted, count := l.count + 1 }

/-- Goes on behind a character. -/
def step (l : Layout) (c : Char) : Layout := { l with pos := l.pos.next c }

/-! ## Candidates -/

/-- Gives up a candidate that can no longer be a key. -/
def expire (pos : Place) : Option Candidate → Outcome (Option Candidate)
  | none => .ok none
  | some k =>
    if k.pos.line < pos.line ∨ k.pos.bytes + maxKeySize < pos.bytes then
      if k.required then .error .noValueMark else .ok none
    else .ok (some k)

/-- Gives up all candidates that can no longer be keys. -/
def expireAll (l : Layout) : Outcome Layout := do
  let outer ← l.outer.mapM (expire l.pos)
  return { l with candidate := ← expire l.pos l.candidate, outer }

/-- Gives up the current candidate. -/
def drop (l : Layout) : Outcome Layout :=
  match l.candidate with
  | some k => if k.required then .error .noValueMark else .ok { l with candidate := none }
  | none => .ok l

/-- Notes that a key may begin here. -/
def note (l : Layout) : Outcome Layout :=
  if l.allowed then do
    let l ← l.drop
    let required := !l.inFlow && l.column == l.pos.column
    return { l with candidate := some ⟨l.count, required, l.pos⟩ }
  else .ok l

/-! ## Block collections -/

/-- Opens a block collection at a column behind the innermost one. -/
def openAt (l : Layout) (column : Nat) (t : Token) : Layout :=
  if !l.inFlow && l.column < column then { l.emit t with columns := column :: l.columns } else l

/-- Closes the block collections behind a column. -/
def closeTo (l : Layout) (column : Int) : Layout :=
  if l.inFlow then l
  else
    let (closed, columns) := l.columns.span fun (c : Nat) => decide ((c : Int) > column)
    { closed.foldl (fun l _ => l.emit .blockEnd) l with columns }

/-! ## Marks -/

/-- A mark that begins or ends a document. -/
def documentMark (l : Layout) (t : Token) : Outcome Layout := do
  let l ← (l.closeTo (-1)).drop
  return { l.emit t with allowed := false, pos := l.pos.after ['-', '-', '-'] }

/-- An opening bracket. -/
def openBracket (l : Layout) (c : Char) (t : Token) : Outcome Layout := do
  let l ← l.note
  let outer := l.candidate :: l.outer
  return { (l.emit t).step c with candidate := none, outer, allowed := true }

/-- A closing bracket. -/
def closeBracket (l : Layout) (c : Char) (t : Token) : Outcome Layout := do
  let l ← l.drop
  let l := match l.outer with
    | k :: outer => { l with candidate := k, outer }
    | [] => l
  return { (l.emit t).step c with allowed := false }

def comma (l : Layout) (c : Char) : Outcome Layout := do
  let l ← l.drop
  return { (l.emit .comma).step c with allowed := true }

/-- A dash in front of an item. -/
def dash (l : Layout) (c : Char) : Outcome Layout := do
  if !l.inFlow && !l.allowed then throw (.misplaced "block sequence entries")
  let l ← (l.openAt l.pos.column .blockSequence).drop
  return { (l.emit .item).step c with allowed := true }

/-- A question mark in front of a key. -/
def questionMark (l : Layout) (c : Char) : Outcome Layout := do
  if !l.inFlow && !l.allowed then throw (.misplaced "mapping keys")
  let l ← (l.openAt l.pos.column .blockMapping).drop
  return { (l.emit .key).step c with allowed := !l.inFlow }

/-- A colon. It makes a key of the candidate, if there is one. -/
def colon (l : Layout) (c : Char) : Outcome Layout := do
  match l.candidate with
  | some k =>
    let opens := !l.inFlow && l.column < k.pos.column
    let columns := if opens then k.pos.column :: l.columns else l.columns
    return { (l.emit .value).step c with
      candidate := none, columns, keys := l.keys.insert k.place opens, allowed := false }
  | none =>
    if !l.inFlow && !l.allowed then throw (.misplaced "mapping values")
    let l := l.openAt l.pos.column .blockMapping
    return { (l.emit .value).step c with allowed := !l.inFlow }

/-! ## Anchors, tags and directives -/

/-- Goes on behind a part of the text that is no key by itself, though it may begin one. -/
def behind {α : Type} (l : Layout) (part : Part α) (t : Token) : List Char × Layout :=
  (part.rest, { l.emit t with pos := part.pos, allowed := false })

/-- An anchor. Its number is how many names there were before, also if its name was among them. -/
def anchor (l : Layout) (c : Char) (rest : List Char) : Outcome (List Char × Layout) := do
  let l ← l.note
  let name ← takeAnchor rest (l.pos.next c)
  let number := l.anchors.length
  let anchors := (name.part, number) :: l.anchors.filter (·.1 != name.part)
  return { l with anchors }.behind name (.anchor number)

/-- A reference to the last anchor with a name. -/
def reference (l : Layout) (c : Char) (rest : List Char) : Outcome (List Char × Layout) := do
  let l ← l.note
  let name ← takeAnchor rest (l.pos.next c)
  match l.anchors.lookup name.part with
  | some number => return l.behind name (.reference number)
  | none => throw (.unknownAnchor name.part)

def tag (l : Layout) (c : Char) (rest : List Char) : Outcome (List Char × Layout) := do
  let l ← l.note
  let tag ← takeTag l.handles l.inFlow rest (l.pos.next c)
  return l.behind tag (.tag tag.part)

/-- Keeps what a directive says; nothing may be said twice. -/
def direct (l : Layout) : Directive → Outcome Layout
  | .version => if l.version then .error .directive else .ok { l with version := true }
  | .handle handle start =>
    if l.handles.any (·.1 == handle) then .error .directive
    else .ok { l with handles := (handle, start) :: l.handles }

/-- A directive, which has a line of its own. -/
def directive (l : Layout) (c : Char) (rest : List Char) : Outcome (List Char × Layout) := do
  let l ← (l.closeTo (-1)).drop
  let directive ← takeDirective rest (l.pos.next c)
  let (rest, pos) ← dropLine false directive.rest directive.pos
  let l ← l.direct directive.part
  return (rest, { l.emit .directive with pos, allowed := false })

/-! ## Scalars -/

/-- A scalar that was taken. -/
def scalar (l : Layout) (plain allowed : Bool) (taken : Taken) : List Char × Layout :=
  (taken.rest, { l.emit (.scalar (String.ofList taken.text) plain) with pos := taken.pos, allowed })

def quoted (l : Layout) (single : Bool) (c : Char) (rest : List Char) :
    Outcome (List Char × Layout) := do
  let l ← l.note
  return l.scalar false false (← quotedTail single rest (l.pos.next c) .none 0 [] [])

def plain (l : Layout) (text : List Char) : Outcome (List Char × Layout) := do
  let l ← l.note
  let taken ← plainTail l.inFlow (l.column + 1).toNat text l.pos .none []
  return l.scalar true taken.broke taken

def block (l : Layout) (folded : Bool) (c : Char) (rest : List Char) :
    Outcome (List Char × Layout) := do
  let l ← l.drop
  return l.scalar false true (← takeBlock folded l.column rest (l.pos.next c))

/-! ## The whole text -/

/-- Goes to the next token: past blanks, line ends and comments. Tabs are no indentation, and a line
may begin with a mark of byte order. -/
def skip (flow : Bool) (comment : Bool) :
    List Char → Place → (allowed : Bool) → List Char × Place × Bool
  | [], pos, allowed => ([], pos, allowed)
  | c :: rest, pos, allowed =>
    if isBreak c then skip flow false rest (pos.next c) (allowed || !flow)
    else if comment || c = ' ' || (pos.column = 0 && c = byteOrderMark) ||
        (c = '\t' && (flow || !allowed)) then
      skip flow comment rest (pos.next c) allowed
    else if c = '#' then skip flow true rest (pos.next c) allowed
    else (c :: rest, pos, allowed)

/-- Whether a character may begin a plain scalar. A dash may unless a blank follows, and so may a
question mark and a colon outside of brackets. -/
def beginsPlain (flow : Bool) (c : Char) (rest : List Char) : Bool :=
  if c = '-' then !endsWord rest
  else if c = '?' || c = ':' then !flow && !endsWord rest
  else !(isBlank c || isBreak c || "#,[]\x7b\x7d&*!|>'\"%@\x60".toList.contains c)

/-- Takes the token that begins with the character `c`. -/
def token (l : Layout) (c : Char) (rest : List Char) : Outcome (List Char × Layout) :=
  let behind (l : Outcome Layout) : Outcome (List Char × Layout) := l.map fun l => (rest, l)
  if l.pos.column = 0 && c = '%' then l.directive c rest
  else if l.pos.column = 0 && isDocumentMark (c :: rest) then
    (l.documentMark (if c = '-' then .documentStart else .documentEnd)).map fun l =>
      (rest.drop 2, l)
  else match c with
    | '[' => behind (l.openBracket c .flowSequence)
    | '\x7b' => behind (l.openBracket c .flowMapping)
    | ']' => behind (l.closeBracket c .flowSequenceEnd)
    | '\x7d' => behind (l.closeBracket c .flowMappingEnd)
    | ',' => behind (l.comma c)
    | '\'' => l.quoted true c rest
    | '"' => l.quoted false c rest
    | _ =>
      if c = '-' && endsWord rest then behind (l.dash c)
      else if c = '?' && (l.inFlow || endsWord rest) then behind (l.questionMark c)
      else if c = ':' && (l.inFlow || endsWord rest) then behind (l.colon c)
      else if c = '&' then l.anchor c rest
      else if c = '*' then l.reference c rest
      else if c = '!' then l.tag c rest
      else if (c = '|' || c = '>') && !l.inFlow then l.block (c == '>') c rest
      else if beginsPlain l.inFlow c rest then l.plain (c :: rest)
      else .error (.noToken c)

/-- The end of the text. -/
def finish (l : Layout) : Outcome Layout := (l.closeTo (-1)).drop

/-- Takes all tokens of a text; each has at least one character. -/
def tokens : (steps : Nat) → List Char → Layout → Outcome Layout
  | 0, _, l => .ok l
  | steps + 1, text, l => do
    let (text, pos, allowed) := skip l.inFlow false text l.pos l.allowed
    let l ← { l with pos, allowed }.expireAll
    match text with
    | [] => l.finish
    | c :: rest =>
      let (text, l) ← (l.closeTo l.pos.column).token c rest
      tokens steps text l

/-- Puts the tokens for keys in front of the tokens with which they begin. -/
def withKeys (keys : Std.TreeMap Nat Bool) : (place : Nat) → List Token → List Token
  | _, [] => []
  | place, t :: rest =>
    let following := t :: withKeys keys (place + 1) rest
    match keys[place]? with
    | none => following
    | some false => .key :: following
    | some true => .blockMapping :: .key :: following

end Layout

/-- The tokens of a text. -/
def Token.ofText (text : String) : Outcome (List Token) := do
  let text ← normalized text.toList
  let l ← Layout.tokens (text.length + 1) text {}
  return Layout.withKeys l.keys 0 l.emitted.reverse

end Dataflow.Yaml

import Dataflow.Text.Basic
import Dataflow.Yaml.Character

/-!
# Scalars

How the text of a scalar is taken from the text of a document. Blanks and line ends between words
are kept back in a `Gap` until it is clear what they stand for: blanks within a line stand for
themselves, a single line end for a space, and further line ends for themselves. Blocks of text keep
their lines; `Block` holds what is kept back there.
-/

namespace Dataflow.Yaml

/-- Text that was taken, and what follows it. -/
structure Taken where
  text : List Char
  rest : List Char
  pos : Place
  /-- Whether the last thing taken was the end of a line. -/
  broke : Bool := false

/-! ## Gaps between words -/

/-- Blanks and line ends behind a word. -/
inductive Gap where
  | none
  | blanks (reversed : List Char)
  /-- The first line end, if it was not written away, and all others. -/
  | lines (first : Option Char) (reversed : List Char)
deriving DecidableEq, Repr

namespace Gap

def isNone : Gap → Bool
  | .none => true
  | _ => false

def isLines : Gap → Bool
  | .lines _ _ => true
  | _ => false

/-- Adds a blank or a line end. Blanks around line ends do not count. -/
def add (g : Gap) (c : Char) : Gap :=
  match g, isBreak c with
  | .none, true => .lines (some c) []
  | .blanks _, true => .lines (some c) []
  | .lines first cs, true => .lines first (c :: cs)
  | .none, false => .blanks [c]
  | .blanks cs, false => .blanks (c :: cs)
  | .lines first cs, false => .lines first cs

/-- What a gap stands for, in reverse. -/
def reversedText : Gap → List Char
  | .none => []
  | .blanks cs => cs
  | .lines (some '\n') [] => [' ']
  | .lines (some '\n') cs => cs
  | .lines first cs => cs ++ first.toList

end Gap

/-! ## Plain scalars -/

/-- Whether a colon or a bracket ends a plain scalar here. -/
def endsPlain (flow : Bool) (c : Char) (rest : List Char) : Bool :=
  (c == ':' && endsWord rest) || (flow && isFlowMark c)

/-- Whether a colon inside brackets is followed by what must not follow it. -/
def isStrayColon (flow : Bool) (c : Char) (rest : List Char) : Bool :=
  flow && c == ':' && (match rest with
    | d :: _ => isFlowMark d || d == '?'
    | [] => false)

/-- Takes the rest of a plain scalar. Outside of brackets it ends at a line that is indented less
than `indent`. -/
def plainTail (flow : Bool) (indent : Nat) :
    List Char → Place → Gap → (reversed : List Char) → Outcome Taken
  | [], pos, gap, out => .ok ⟨out.reverse, [], pos, gap.isLines⟩
  | c :: rest, pos, gap, out =>
    if isBlank c || isBreak c then
      if gap.isLines && c = '\t' && pos.column < indent then .error .tab
      else plainTail flow indent rest (pos.next c) (gap.add c) out
    else if !gap.isNone &&
        ((!flow && pos.column < indent) || (pos.column == 0 && isDocumentMark (c :: rest)) ||
          c == '#') then
      .ok ⟨out.reverse, c :: rest, pos, gap.isLines⟩
    else if isStrayColon flow c rest then .error .flowColon
    else if endsPlain flow c rest then .ok ⟨out.reverse, c :: rest, pos, gap.isLines⟩
    else plainTail flow indent rest (pos.next c) .none (c :: gap.reversedText ++ out)

/-! ## Quoted scalars -/

/-- What a letter behind a backslash stands for. -/
def escape? (c : Char) : Option Char :=
  match c with
  | '0' => some (Char.ofNat 0)
  | 'a' => some (Char.ofNat 7)
  | 'b' => some (Char.ofNat 8)
  | 't' | '\t' => some '\t'
  | 'n' => some '\n'
  | 'v' => some (Char.ofNat 11)
  | 'f' => some (Char.ofNat 12)
  | 'r' => some '\r'
  | 'e' => some (Char.ofNat 27)
  | ' ' => some ' '
  | '"' => some '"'
  | '/' => some '/'
  | '\\' => some '\\'
  | 'N' => some (Char.ofNat 0x85)
  | '_' => some (Char.ofNat 0xA0)
  | 'L' => some lineSeparator
  | 'P' => some paragraphSeparator
  | _ => none

/-- How many hexadecimal digits follow a letter behind a backslash. -/
def escapeDigits : Char → Nat
  | 'x' => 2
  | 'u' => 4
  | 'U' => 8
  | _ => 0

/-- The character with the code point that hexadecimal digits give. -/
def charOfHex? (digits : List Char) : Option Char := do
  let n ← digits.foldlM (fun n d => (Text.hexValue? d).map (n * 16 + ·)) 0
  if n.isValidChar then some (Char.ofNat n) else none

/-- Takes the rest of a quoted scalar and its closing quote. `digits` counts the hexadecimal digits
of an escape that are still to come, and `code` holds those that were there. -/
def quotedTail (single : Bool) :
    List Char → Place → Gap → (digits : Nat) → (code : List Char) → (reversed : List Char) →
      Outcome Taken
  | [], _, _, _, _, _ => .error .unclosedQuote
  | c :: rest, pos, gap, digits + 1, code, out =>
    if digits = 0 then
      match charOfHex? (code ++ [c]) with
      | some x => quotedTail single rest (pos.next c) gap 0 [] (x :: out)
      | none => .error .escape
    else quotedTail single rest (pos.next c) gap digits (code ++ [c]) out
  | c :: rest, pos, gap, 0, _, out =>
    if isBlank c || isBreak c then quotedTail single rest (pos.next c) (gap.add c) 0 [] out
    else if !gap.isNone && pos.column == 0 && isDocumentMark (c :: rest) then .error .documentMark
    else
      let out := gap.reversedText ++ out
      match single, c, rest with
      | true, '\'', '\'' :: rest =>
        quotedTail single rest ((pos.next c).next c) .none 0 [] ('\'' :: out)
      | true, '\'', rest => .ok ⟨out.reverse, rest, pos.next c, false⟩
      | false, '"', rest => .ok ⟨out.reverse, rest, pos.next c, false⟩
      | false, '\\', d :: rest =>
        let pos := (pos.next c).next d
        if isBreak d then quotedTail single rest pos (.lines none []) 0 [] out
        else if escapeDigits d > 0 then quotedTail single rest pos .none (escapeDigits d) [] out
        else match escape? d with
          | some x => quotedTail single rest pos .none 0 [] (x :: out)
          | none => .error .escape
      | _, c, rest => quotedTail single rest (pos.next c) .none 0 [] (c :: out)

/-! ## Blocks of text -/

/-- What becomes of the line ends at the end of a block. -/
inductive Chomping where
  | strip
  | clip
  | keep
deriving DecidableEq, Repr

/-- The chomping that a sign stands for. -/
def chomping? : Char → Option Chomping
  | '-' => some .strip
  | '+' => some .keep
  | _ => none

/-- The indentation that a digit stands for. -/
def indentDigit? (c : Char) : Option Nat :=
  if c.isDigit then some (Text.digitValue c) else none

/-- Takes the signs behind the mark of a block, in any order: how to chomp it, and its indentation
if it is given. -/
def takeHints (text : List Char) (pos : Place) :
    Outcome (Chomping × Option Nat × List Char × Place) :=
  let sign (text : List Char) (pos : Place) : Option Chomping × List Char × Place :=
    match text with
    | c :: rest => match chomping? c with
      | some how => (some how, rest, pos.next c)
      | none => (none, text, pos)
    | [] => (none, text, pos)
  let digit (text : List Char) (pos : Place) : Option Nat × List Char × Place :=
    match text with
    | c :: rest => match indentDigit? c with
      | some n => (some n, rest, pos.next c)
      | none => (none, text, pos)
    | [] => (none, text, pos)
  let (how, text, pos) := sign text pos
  let (n, text, pos) := digit text pos
  let (how, text, pos) := if how.isSome then (how, text, pos) else sign text pos
  if n = some 0 then .error .blockHeader else .ok (how.getD .clip, n, text, pos)

/-- Drops blanks and a comment up to the end of the line, and that end. -/
def dropLine (comment : Bool) : List Char → Place → Outcome (List Char × Place)
  | [], pos => .ok ([], pos)
  | c :: rest, pos =>
    if isBreak c then .ok (rest, pos.next c)
    else if comment || isBlank c then dropLine comment rest (pos.next c)
    else if c = '#' then dropLine true rest (pos.next c)
    else .error .blockHeader

/-- Line ends that were taken, and what follows them. -/
structure Breaks where
  reversed : List Char
  rest : List Char
  pos : Place
  /-- The largest indentation met. -/
  deepest : Nat

/-- Takes line ends and the indentation of the lines between them; an indentation of zero is not
known yet. -/
def takeBreaks (indent : Nat) :
    List Char → Place → (deepest : Nat) → (reversed : List Char) → Outcome Breaks
  | [], pos, deepest, out => .ok ⟨out, [], pos, max deepest pos.column⟩
  | c :: rest, pos, deepest, out =>
    let outside := indent == 0 || pos.column < indent
    if c = ' ' && outside then takeBreaks indent rest (pos.next c) deepest out
    else if c = '\t' && outside then .error .tab
    else if isBreak c then
      takeBreaks indent rest (pos.next c) (max deepest pos.column) (c :: out)
    else .ok ⟨out, c :: rest, pos, max deepest pos.column⟩

/-- Takes the rest of a line without its end. -/
def takeLine : List Char → Place → (reversed : List Char) → List Char × List Char × Place
  | [], pos, out => (out, [], pos)
  | c :: rest, pos, out =>
    if isBreak c then (out, c :: rest, pos) else takeLine rest (pos.next c) (c :: out)

/-- What was taken of a block. -/
structure Block where
  /-- Its text, in reverse. -/
  reversed : List Char := []
  /-- The end of its last line. -/
  lead : Option Char := none
  /-- Further line ends, in reverse. -/
  more : List Char := []
  /-- Whether its last line began with a blank. -/
  indented : Bool := false

/-- Adds what the kept back line ends stand for when a line follows. In a folded block a single line
end between two lines that begin with words becomes a space. -/
def Block.flush (b : Block) (folded indented : Bool) : List Char :=
  if folded && b.lead == some '\n' && !b.indented && !indented then
    if b.more.isEmpty then ' ' :: b.reversed else b.more ++ b.reversed
  else b.more ++ b.lead.toList ++ b.reversed

/-- The text of a block at its end. -/
def Block.finish (b : Block) (how : Chomping) : List Char :=
  match how with
  | .strip => b.reversed.reverse
  | .clip => (b.lead.toList ++ b.reversed).reverse
  | .keep => (b.more ++ b.lead.toList ++ b.reversed).reverse

/-- Takes the lines of a block that are indented enough; there are at most `lines`. -/
def takeLines (folded : Bool) (indent : Nat) :
    (lines : Nat) → Block → List Char → Place → Outcome (Block × List Char × Place)
  | lines + 1, b, c :: rest, pos => do
    if pos.column ≠ indent then return (b, c :: rest, pos)
    let indented := isBlank c
    let (reversed, rest, pos) := takeLine (c :: rest) pos (b.flush folded indented)
    let lead := rest.head?
    let breaks ← takeBreaks indent (rest.drop 1) (match lead with
      | some c => pos.next c
      | none => pos) 0 []
    takeLines folded indent lines { reversed, lead, more := breaks.reversed, indented }
      breaks.rest breaks.pos
  | _, b, text, pos => .ok (b, text, pos)

/-- Takes a block of text whose mark was taken; it lies in a collection at the column `parent`. -/
def takeBlock (folded : Bool) (parent : Int) (text : List Char) (pos : Place) : Outcome Taken := do
  let (how, hint, text, pos) ← takeHints text pos
  let (text, pos) ← dropLine false text pos
  let given := (hint.map fun n => (max parent 0).toNat + n).getD 0
  let breaks ← takeBreaks given text pos 0 []
  let indent := if given = 0 then max (max breaks.deepest (parent + 1).toNat) 1 else given
  let (b, rest, pos) ← takeLines folded indent (text.length + 1) { more := breaks.reversed }
    breaks.rest breaks.pos
  return ⟨b.finish how, rest, pos, false⟩

end Dataflow.Yaml

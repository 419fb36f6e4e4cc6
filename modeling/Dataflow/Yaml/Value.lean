import Dataflow.Number.Decimal
import Dataflow.Yaml.Document

/-!
# YAML values

What a document says: null, switches, numbers and text are told apart by how plain scalars are
written, and whatever is quoted is text, unless a tag says otherwise. The entries of a mapping are
in the order of the text; `Value.checked` refuses mappings with repeated keys.
-/

namespace Dataflow.Yaml

/-- A YAML value. -/
inductive Value where
  | null
  | bool (b : Bool)
  | int (i : Int)
  /-- Zero written with a minus sign. It is the integer zero, but counts nothing. -/
  | minusZero
  | double (x : Double)
  | string (s : String)
  | sequence (items : List Value)
  | mapping (entries : List (Value × Value))
  /-- A value with a name. -/
  | named (name : String) (v : Value)
deriving Inhabited

namespace Value

/-- A value without its name. -/
def bare : Value → Value
  | .named _ v => bare v
  | v => v

/-- The integer that a value is. -/
def int? : Value → Option Int
  | .int i => some i
  | .minusZero => some 0
  | _ => none

def isNull : Value → Bool
  | .null => true
  | _ => false

/-! ## Plain scalars -/

def isNullWord (s : String) : Bool := ["", "~", "null", "Null", "NULL"].contains s

def boolOf? (s : String) : Option Bool :=
  if ["true", "True", "TRUE"].contains s then some true
  else if ["false", "False", "FALSE"].contains s then some false
  else none

/-- The value of a digit in some base. -/
def digitOf? (base : Nat) (c : Char) : Option Nat :=
  match Text.hexValue? c with
  | some n => if n < base then some n else none
  | none => none

/-- The value of digits in some base; there has to be one. -/
def natOf? (base : Nat) (digits : List Char) : Option Nat :=
  if digits.isEmpty then none
  else digits.foldlM (fun n c => (digitOf? base c).map (n * base + ·)) 0

/-- Whether digits begin with a zero that does not stand alone. -/
def hasLeadingZero (digits : List Char) : Bool :=
  match digits with
  | '0' :: c :: rest => (c :: rest).all Char.isDigit
  | _ => false

/-- The value of an integer without sign: decimal, or in the base that a letter behind a zero says.
A decimal number does not begin with a zero. -/
def unsignedOf? (text : List Char) : Option Nat :=
  match text with
  | '0' :: 'x' :: digits => natOf? 16 digits
  | '0' :: 'o' :: digits => natOf? 8 digits
  | '0' :: 'b' :: digits => natOf? 2 digits
  | digits => if hasLeadingZero digits then none else natOf? 10 digits

/-- How an integer is taken. -/
inductive Size where
  /-- It fits 64 bits. -/
  | fits
  /-- It only fits 128 bits, and is refused. -/
  | wide
deriving DecidableEq

/-- The integer that a plain scalar is; beyond 128 bits there are none. -/
def intOf? (s : String) : Option (Int × Size) :=
  match s.toList with
  | '-' :: rest => match unsignedOf? rest with
    | some n =>
      if n ≤ twoPow 63 then some (-(n : Int), .fits)
      else if n ≤ twoPow 127 then some (-(n : Int), .wide)
      else none
    | none => none
  | text =>
    let digits := match text with
      | '+' :: rest => rest
      | all => all
    match unsignedOf? digits with
    | some n =>
      if n < twoPow 64 then some (n, .fits) else if n < twoPow 128 then some (n, .wide) else none
    | none => none

/-- The number that a text is: decimal and finite, or one of the words for what is not. -/
def numberOf? (s : String) : Option Double :=
  let text := s.toList
  let digits := (Decimal.splitSign text).2
  if [".nan", ".NaN", ".NAN"].contains s then some (.nan false)
  else if [".inf", ".Inf", ".INF"].contains (String.ofList digits) then
    some (.infinite (text.head? == some '-'))
  else match Decimal.read? text with
    | some d =>
      let x : Double := d.nearest
      if x.isFinite then some x else none
    | none => none

/-- The number that a plain scalar is; it does not begin with a zero that is not needed. -/
def doubleOf? (s : String) : Option Double :=
  if hasLeadingZero (Decimal.splitSign s.toList).2 then none else numberOf? s

/-- The value that an integer in a text is. -/
def ofInt (text : String) : Int × Size → Outcome Value
  | (_, .wide) => .error (.integerRange text)
  | (i, .fits) => .ok (if i = 0 ∧ text.toList.head? = some '-' then .minusZero else .int i)

/-- What a plain scalar is. -/
def ofPlain (s : String) : Outcome Value :=
  if isNullWord s then .ok .null
  else match boolOf? s with
    | some b => .ok (.bool b)
    | none => match intOf? s with
      | some i => ofInt s i
      | none => match doubleOf? s with
        | some x => .ok (.double x)
        | none => .ok (.string s)

/-- What a scalar is that has none of the tags that YAML defines. -/
def ofUntagged (text : String) (plain : Bool) : Outcome Value :=
  if plain then ofPlain text else .ok (.string text)

/-- What a scalar is. With the tag of a type of scalars its text has to be of that type, however it
is written; any other tag makes it text. -/
def ofScalar (tag : Option Tag) (text : String) (plain : Bool) : Outcome Value :=
  match tag with
  | some .null =>
    if isNullWord text && !text.isEmpty then .ok .null else .error (.tagged "null")
  | some .bool =>
    match boolOf? text with
    | some b => .ok (.bool b)
    | none => .error (.tagged "a boolean")
  | some .int =>
    match intOf? text with
    | some i => ofInt text i
    | none => .error (.tagged "an integer")
  | some .float =>
    match numberOf? text with
    | some x => .ok (.double x)
    | none => .error (.tagged "a float")
  | some .other => .ok (.string text)
  | _ => ofUntagged text plain

/-! ## Whole documents -/

/-- Gives a value the name that its tag says. -/
def withName (names : Bool) (tag : Option Tag) (v : Value) : Outcome Value :=
  match tag.bind Tag.word? with
  | some name => if names then .ok (.named name v) else .error (.tagged "without name")
  | none => .ok v

/-- The value of a node. At most `depth` collections may lie in each other, and values may only have
names where `names` allows it. -/
def ofNode (d : Document) (names : Bool) (depth : Nat) (node : Node) : Reading Value := do
  match ← d.follow node, depth with
  | .scalar tag text plain, _ => withName names tag (← ofScalar tag text plain)
  | .sequence tag items, depth + 1 =>
    withName names tag (.sequence (← items.mapM (ofNode d names depth)))
  | .mapping tag entries, depth + 1 =>
    withName names tag (.mapping (← entries.mapM fun (k, v) => do
      let k ← ofNode d names depth k
      return (k, ← ofNode d names depth v)))
  | _, _ => throw .tooDeep
termination_by structural depth

/-- How many collections may lie in each other. -/
def maxDepth : Nat := 128

/-! ## Repeated keys -/

mutual

/-- Whether two values are equal. The order of entries does not matter, and what is not a number
equals itself. -/
def same : Value → Value → Bool
  | .null, .null => true
  | .bool a, .bool b => a == b
  | .int a, .int b => a == b
  | .int a, .minusZero => a == 0
  | .minusZero, .int b => b == 0
  | .minusZero, .minusZero => true
  | .double a, .double b => a.equals b || (a.isNaN && b.isNaN)
  | .string a, .string b => a == b
  | .sequence as, .sequence bs => sameItems as bs
  | .mapping as, .mapping bs => as.length == bs.length && sameEntries as bs
  | .named a v, .named b w => a == b && same v w
  | _, _ => false
termination_by structural x => x

def sameItems : List Value → List Value → Bool
  | [], [] => true
  | a :: as, b :: bs => same a b && sameItems as bs
  | _, _ => false
termination_by structural x => x

/-- Whether each of the entries is among the others. -/
def sameEntries : List (Value × Value) → List (Value × Value) → Bool
  | [], _ => true
  | (k, v) :: rest, bs => bs.any (fun (k', v') => same k k' && same v v') && sameEntries rest bs
termination_by structural x => x

end

/-- Whether a key occurs twice. -/
def hasRepeatedKey : List (Value × Value) → Bool
  | [] => false
  | (k, _) :: rest => rest.any (fun (k', _) => same k k') || hasRepeatedKey rest

mutual

/-- Whether no mapping in a value has a repeated key. -/
def isUnambiguous : Value → Bool
  | .sequence items => allUnambiguous items
  | .mapping entries => !hasRepeatedKey entries && entriesUnambiguous entries
  | .named _ v => isUnambiguous v
  | _ => true
termination_by structural x => x

def allUnambiguous : List Value → Bool
  | [] => true
  | v :: rest => isUnambiguous v && allUnambiguous rest
termination_by structural x => x

def entriesUnambiguous : List (Value × Value) → Bool
  | [] => true
  | (k, v) :: rest => isUnambiguous k && isUnambiguous v && entriesUnambiguous rest
termination_by structural x => x

end

/-- Refuses repeated keys. -/
def checked (v : Value) : Outcome Value :=
  if v.isUnambiguous then .ok v else .error .duplicateKey

/-- The value of a text. A text without document is null. -/
def ofText (text : String) : Outcome Value := do
  match ← Document.ofText? text with
  | none => return .null
  | some d => (← d.read fun d root => ofNode d true maxDepth root).checked

end Value

end Dataflow.Yaml

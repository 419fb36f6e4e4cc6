import Dataflow.Number.Binary
import Dataflow.Schema.DataType

/-!
# Values

The values of cells, how they are told apart, and the order in which rows are sorted. A row is a
list of values.

In `Value.order` nulls come first, then truth values, numbers, bytes, texts, maps, tuples and bags;
numbers are compared whatever their width, but only two whole ones exactly. Lists of any kind are
compared element by element, and by length when one begins the other.
-/

namespace Dataflow

/-- The value of a cell. -/
inductive Value where
  | null
  | boolean (b : Bool)
  | int (i : Int32)
  | long (i : Int64)
  | float (x : Single)
  | double (x : Double)
  | charArray (s : String)
  | byteArray (bytes : List UInt8)
  /-- Values by key; the keys ascend. -/
  | map (entries : List (String × Value))
  | tuple (items : List Value)
  | bag (rows : List (List Value))
deriving Inhabited

/-- The values of a record, by column. -/
abbrev Row := List Value

namespace Value

/-- A whole number with the narrowest width that fits it; beyond 64 bits it is rounded. -/
def ofInt (i : Int) : Value :=
  if fitsInt i then .int (.ofInt i)
  else if fitsLong i then .long (.ofInt i)
  else .double (.ofInt i)

/-- The type of a value; null has none. -/
def type? : Value → Option DataType
  | .null => none
  | .boolean _ => some .boolean
  | .int _ => some .int
  | .long _ => some .long
  | .float _ => some .float
  | .double _ => some .double
  | .charArray _ => some .charArray
  | .byteArray _ => some .byteArray
  | .map _ => some .map
  | .tuple _ => some .tuple
  | .bag _ => some .bag

def isNull : Value → Bool
  | .null => true
  | _ => false

def asBool? : Value → Option Bool
  | .boolean b => some b
  | _ => none

/-- The value of a whole number. -/
def asInt? : Value → Option Int
  | .int i => some i.toInt
  | .long i => some i.toInt
  | _ => none

/-- A number as the nearest 64-bit one. -/
def asDouble? : Value → Option Double
  | .int i => some (.ofInt i.toInt)
  | .long i => some (.ofInt i.toInt)
  | .float x => some x.convert
  | .double x => some x
  | _ => none

/-! ## Maps -/

/-- Puts a value under a key, replacing the one that was there. -/
def insertEntry (key : String) (v : Value) : List (String × Value) → List (String × Value)
  | [] => [(key, v)]
  | (k, w) :: rest =>
    if key < k then (key, v) :: (k, w) :: rest
    else if key = k then (key, v) :: rest
    else (k, w) :: insertEntry key v rest

/-- The entries by ascending key; of two with the same key the later one counts. -/
def sortEntries (entries : List (String × Value)) : List (String × Value) :=
  entries.foldl (fun sorted (k, v) => insertEntry k v sorted) []

/-- The map with the given entries; of two with the same key the later one counts. -/
def mapOf (entries : List (String × Value)) : Value := .map (sortEntries entries)

/-- The value under a key of a map. -/
def lookup? (entries : List (String × Value)) (key : String) : Option Value := entries.lookup key

/-! ## Equality -/

mutual

/-- Equality of values of the same kind. Floating-point numbers are compared as numbers, so that
not-a-number differs from itself. -/
def equals : Value → Value → Bool
  | .null, .null => true
  | .boolean a, .boolean b => a == b
  | .int a, .int b => a == b
  | .long a, .long b => a == b
  | .float a, .float b => a.equals b
  | .double a, .double b => a.equals b
  | .charArray a, .charArray b => a == b
  | .byteArray a, .byteArray b => a == b
  | .map a, .map b => entriesEqual a b
  | .tuple a, .tuple b => rowsEqual a b
  | .bag a, .bag b => bagsEqual a b
  | _, _ => false
termination_by structural x => x

def entriesEqual : List (String × Value) → List (String × Value) → Bool
  | [], [] => true
  | (k, v) :: as, (k', v') :: bs => k == k' && equals v v' && entriesEqual as bs
  | _, _ => false
termination_by structural x => x

def rowsEqual : List Value → List Value → Bool
  | [], [] => true
  | a :: as, b :: bs => equals a b && rowsEqual as bs
  | _, _ => false
termination_by structural x => x

def bagsEqual : List (List Value) → List (List Value) → Bool
  | [], [] => true
  | a :: as, b :: bs => rowsEqual a b && bagsEqual as bs
  | _, _ => false
termination_by structural x => x

end

/-! ## Order -/

/-- Where values of a kind stand among values of other kinds. -/
def kindRank : Value → Nat
  | .null => 0
  | .boolean _ => 1
  | .int _ | .long _ | .float _ | .double _ => 2
  | .byteArray _ => 3
  | .charArray _ => 4
  | .map _ => 5
  | .tuple _ => 6
  | .bag _ => 7

/-- Compares values neither of which is made of others, or which differ in kind. Two whole numbers
are compared exactly, other numbers as 64-bit ones. -/
def orderSimple (a b : Value) : Ordering :=
  match a.asInt?, b.asInt? with
  | some i, some j => compare i j
  | _, _ =>
    match a.asDouble?, b.asDouble? with
    | some x, some y => x.order y
    | _, _ => compare a.kindRank b.kindRank

/-- Compares bytes one by one. -/
def orderBytes : List UInt8 → List UInt8 → Ordering
  | [], [] => .eq
  | [], _ :: _ => .lt
  | _ :: _, [] => .gt
  | a :: as, b :: bs => (compare a b).then (orderBytes as bs)

mutual

/-- The order of values. -/
def order : Value → Value → Ordering
  | .boolean a, .boolean b => compare a b
  | .charArray a, .charArray b => compare a b
  | .byteArray a, .byteArray b => orderBytes a b
  | .tuple a, .tuple b => orderRows a b
  | .bag a, .bag b => orderBags a b
  | .map a, .map b => orderEntries a b
  | a, b => orderSimple a b
termination_by structural x => x

def orderEntries : List (String × Value) → List (String × Value) → Ordering
  | [], [] => .eq
  | [], _ :: _ => .lt
  | _ :: _, [] => .gt
  | (k, v) :: as, (k', v') :: bs => ((compare k k').then (order v v')).then (orderEntries as bs)
termination_by structural x => x

/-- The order of rows: by the first cell that differs. -/
def orderRows : List Value → List Value → Ordering
  | [], [] => .eq
  | [], _ :: _ => .lt
  | _ :: _, [] => .gt
  | a :: as, b :: bs => (order a b).then (orderRows as bs)
termination_by structural x => x

def orderBags : List (List Value) → List (List Value) → Ordering
  | [], [] => .eq
  | [], _ :: _ => .lt
  | _ :: _, [] => .gt
  | a :: as, b :: bs => (orderRows a b).then (orderBags as bs)
termination_by structural x => x

end

end Value

end Dataflow

import Dataflow.Text.Basic

/-!
# Column types

The types a column can have, their names, and how two of them are merged when rows from different
inputs meet in one column.
-/

namespace Dataflow

/-- The type of a column. -/
inductive DataType where
  | byteArray | boolean | int | long | float | double | dateTime | charArray | bigInteger
  | bigDecimal | map | tuple | bag
deriving DecidableEq, Repr, Inhabited

namespace DataType

/-- The name by which a type is written. -/
def name : DataType → String
  | .byteArray => "bytearray"
  | .boolean => "boolean"
  | .int => "int"
  | .long => "long"
  | .float => "float"
  | .double => "double"
  | .dateTime => "datetime"
  | .charArray => "chararray"
  | .bigInteger => "biginteger"
  | .bigDecimal => "bigdecimal"
  | .map => "map"
  | .tuple => "tuple"
  | .bag => "bag"

instance : ToString DataType := ⟨name⟩

/-- All types. -/
def all : List DataType :=
  [.byteArray, .boolean, .int, .long, .float, .double, .dateTime, .charArray, .bigInteger,
    .bigDecimal, .map, .tuple, .bag]

/-- The type with exactly this name. -/
def ofName? (s : String) : Option DataType := all.find? (·.name == s)

/-- Reads a type as a script author may write it: blanks around it and letter case do not matter,
and some types have a second name. -/
def read? (s : String) : Option DataType :=
  match Text.lower (Text.trim s) with
  | "bytes" => some .byteArray
  | "bool" => some .boolean
  | "integer" => some .int
  | "string" => some .charArray
  | word => ofName? word

/-- The place of a numeric type in the order of widening. -/
def width? : DataType → Option Nat
  | .int => some 0
  | .long => some 1
  | .float => some 2
  | .double => some 3
  | .bigInteger => some 4
  | .bigDecimal => some 5
  | _ => none

def isNumeric (t : DataType) : Bool := t.width?.isSome

/-- Whether values of the type are made of other values. -/
def isComplex : DataType → Bool
  | .map | .tuple | .bag => true
  | _ => false

/-- Whether columns of the type may have a schema of their own. -/
def isNested : DataType → Bool
  | .tuple | .bag => true
  | _ => false

/-- The type of a column that holds values of both types: numbers widen, raw bytes give way to any
other type, and otherwise the types have to be equal. -/
def merge? (s t : DataType) : Option DataType :=
  if s = t then some s
  else match s.width?, t.width? with
    | some i, some j => some (if i ≥ j then s else t)
    | _, _ => match s, t with
      | .byteArray, t => some t
      | s, .byteArray => some s
      | _, _ => none

end DataType

end Dataflow

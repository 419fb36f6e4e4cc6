import Dataflow.Number.Decimal
import Dataflow.Text.Visible
import Dataflow.Value.Basic

/-!
# The text of values

`Value.text` names the kind of a value and shows what is in it; `Value.literal` is the shorter form
in which constants stand in expressions.
-/

namespace Dataflow.Value

/-- Numbers with a point or a power of ten, the latter from `10 ^ 16` on and below `10 ^ (-4)`. -/
def numberStyle : Decimal.Style where
  positional power := -4 ≤ power && power < 16
  pointZero := true
  plus := false
  tie := .up
  nan := "NaN"
  infinity := "inf"
  negativeInfinity := "-inf"

/-- Numbers without powers of ten. -/
def plainStyle : Decimal.Style :=
  { numberStyle with positional := fun _ => true, pointZero := false }

/-- Items between brackets. -/
def bracketed (items : List String) : String := "[" ++ Text.join ", " items ++ "]"

mutual

/-- The kind of a value and what is in it, for instance `Tuple([Int(1), Null])`. -/
def text : Value → String
  | .null => "Null"
  | .boolean b => s!"Boolean({b})"
  | .int i => s!"Int({i.toInt})"
  | .long i => s!"Long({i.toInt})"
  | .float x => "Float(" ++ x.text numberStyle ++ ")"
  | .double x => "Double(" ++ x.text numberStyle ++ ")"
  | .charArray s => "CharArray(" ++ Text.quoted s ++ ")"
  | .byteArray bytes => "ByteArray(" ++ bracketed (bytes.map fun b => toString b.toNat) ++ ")"
  | .map entries => "Map(\x7b" ++ Text.join ", " (entryTexts entries) ++ "\x7d)"
  | .tuple items => "Tuple(" ++ bracketed (rowTexts items) ++ ")"
  | .bag rows => "Bag(" ++ bracketed (bagTexts rows) ++ ")"
termination_by structural x => x

def entryTexts : List (String × Value) → List String
  | [] => []
  | (k, v) :: rest => (Text.quoted k ++ ": " ++ text v) :: entryTexts rest
termination_by structural x => x

def rowTexts : List Value → List String
  | [] => []
  | v :: rest => text v :: rowTexts rest
termination_by structural x => x

def bagTexts : List (List Value) → List String
  | [] => []
  | row :: rest => bracketed (rowTexts row) :: bagTexts rest
termination_by structural x => x

end

/-- A constant as it stands in an expression. -/
def literal : Value → String
  | .null => "null"
  | .boolean b => toString b
  | .int i => toString i.toInt
  | .long i => s!"{i.toInt}L"
  | .float x => x.text plainStyle ++ "F"
  | .double x => x.text numberStyle
  | .charArray s => "'" ++ s ++ "'"
  | other => other.text

end Dataflow.Value

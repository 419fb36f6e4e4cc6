import Dataflow.Engine.Error
import Dataflow.Json.Reader
import Dataflow.Text.Utf8
import Dataflow.Value.Basic

/-!
# Records as text

Records are stored as lines of JSON, one array per record. Writing keeps less than the values hold:
the width of numbers, the difference between tuples and bags, and bytes that are no text are lost.
Reading gives whole numbers the narrowest width that fits them.
-/

namespace Dataflow

/-- A number that JSON has; what is no number becomes null. -/
def Json.ofDouble (x : Double) : Json := if x.isFinite then .double x else .null

namespace Value

mutual

/-- A value as JSON. -/
def toJson : Value → Json
  | .null => .null
  | .boolean b => .bool b
  | .int i => .int i.toInt
  | .long i => .int i.toInt
  | .float x => .ofDouble x.convert
  | .double x => .ofDouble x
  | .charArray s => .string s
  | .byteArray bytes => .string (Text.ofBytes bytes)
  | .map entries => .object (entriesToJson entries)
  | .tuple items => .array (rowToJson items)
  | .bag rows => .array (bagToJson rows)
termination_by structural x => x

def entriesToJson : List (String × Value) → List (String × Json)
  | [] => []
  | (k, v) :: rest => (k, toJson v) :: entriesToJson rest
termination_by structural x => x

def rowToJson : List Value → List Json
  | [] => []
  | v :: rest => toJson v :: rowToJson rest
termination_by structural x => x

def bagToJson : List (List Value) → List Json
  | [] => []
  | row :: rest => .array (rowToJson row) :: bagToJson rest
termination_by structural x => x

end

mutual

/-- The value that JSON stands for: arrays are tuples, objects are maps, and what is not held is
null. -/
def ofJson : Json → Value
  | .null | .unheld => .null
  | .bool b => .boolean b
  | .int i => ofInt i
  | .double x => .double x
  | .string s => .charArray s
  | .array items => .tuple (rowOfJson items)
  | .object members => mapOf (entriesOfJson members)
termination_by structural x => x

def rowOfJson : List Json → List Value
  | [] => []
  | j :: rest => ofJson j :: rowOfJson rest
termination_by structural x => x

def entriesOfJson : List (String × Json) → List (String × Value)
  | [] => []
  | (k, j) :: rest => (k, ofJson j) :: entriesOfJson rest
termination_by structural x => x

end

end Value

namespace Records

/-- A record as a line, without its end. -/
def lineOf (row : Row) : String := (Json.array (Value.rowToJson row)).text

/-- Records as text, a line each. -/
def toLines (records : List Row) : String := String.join (records.map fun row => lineOf row ++ "\n")

/-- The lines of a text that are not blank. -/
def contentLines (text : List Char) : List (List Char) :=
  (Text.lines text).filter fun line => !line.all Text.isBlank

/-- The record in a line; `number` counts from one. -/
def ofLine (number : Nat) (line : List Char) : RunResult Row :=
  match Json.read line with
  | .ok (.array items) => .ok (Value.rowOfJson items)
  | .ok _ => .error (.invalid (.notAnArray number))
  | .error fault => .error (.json fault)

/-- The records in a text. Blank lines do not count. -/
def ofLines (text : String) : RunResult (List Row) :=
  (contentLines text.toList).zipIdx.mapM fun (line, i) => ofLine (i + 1) line

/-- How many bytes the records take as text. -/
def byteSize (records : List Row) : Nat :=
  (records.map fun row => (lineOf row).utf8ByteSize + 1).foldr (· + ·) 0

end Records

end Dataflow

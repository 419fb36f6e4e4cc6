import Dataflow.Text.Visible
import Dataflow.Yaml.Writer

/-!
# Shapes of YAML values

Readers of values that have to have some shape. A record is a mapping with known names, or a
sequence with the values of the leading names.
-/

namespace Dataflow.Yaml.Value

/-- What a value is, in words. -/
def kind : Value → String
  | .null => "unit value"
  | .bool b => "boolean " ++ marked (toString b)
  | .int i => "integer " ++ marked (toString i)
  | .minusZero => "integer " ++ marked "0"
  | .double x => "floating point " ++ marked (x.text numberStyle)
  | .string s => "string " ++ Text.quoted s
  | .sequence _ => "sequence"
  | .mapping _ => "map"
  | .named _ _ => "enum"

def wrong {β : Type} (v : Value) (wanted : String) : Outcome β := .error (.wrongType v.kind wanted)

def asText (v : Value) : Outcome String :=
  match v.bare with
  | .string s => .ok s
  | v => v.wrong "a string"

def asFlag (v : Value) : Outcome Bool :=
  match v.bare with
  | .bool b => .ok b
  | v => v.wrong "a boolean"

/-- A natural number of 64 bits. -/
def asCount (v : Value) : Outcome Nat :=
  match v.bare.int? with
  | some i => if i < 0 then v.wrong "usize" else .ok i.toNat
  | none => v.wrong "usize"

/-- The items of a sequence, each read. -/
def asList {β : Type} (read : Value → Outcome β) (v : Value) : Outcome (List β) :=
  match v.bare with
  | .sequence items => items.mapM read
  | v => v.wrong "a sequence"

/-- What is read of a value that may be null. -/
def asOptional {β : Type} (read : Value → Outcome β) : Value → Outcome (Option β)
  | .null => .ok none
  | v => do return some (← read v)

/-- The name that a key stands for: itself, or the name with that number. -/
def nameOf (names : List String) : Value → Outcome (Option String)
  | .string s => .ok (if names.contains s then some s else none)
  | .int i => if i < 0 then (Value.int i).wrong "field identifier" else .ok names[i.toNat]?
  | v => v.wrong "field identifier"

/-- Whether a value is what a word stands with that has nothing else to say. -/
def isNothing : Value → Bool
  | .null | .mapping [] => true
  | _ => false

/-- One of the given words: written as text, or as the key of nothing. -/
def asVariant {β : Type} (name : β → String) (known : List β) (v : Value) : Outcome β := do
  let names := known.map name
  let find (word : String) : Outcome β :=
    match known.find? (name · == word) with
    | some b => .ok b
    | none => .error (.unknownVariant word names)
  match v with
  | .string word => find word
  | .mapping [(.string word, v)] => if v.isNothing then find word else v.wrong "unit"
  | .mapping [(.int i, w)] =>
    match known[i.toNat]? with
    | some b => if i < 0 || !w.isNothing then v.wrong "variant identifier" else return b
    | none => v.wrong "variant identifier"
  | _ => v.wrong "string or map"

/-! ## Records -/

/-- The values of a record by name. -/
abbrev Record := List (String × Value)

/-- Collects the entries with known names; other entries do not count, but no name may come
twice. -/
def recordOf (names : List String) : List (Value × Value) → Outcome Record
  | [] => .ok []
  | (k, v) :: rest => do
    let record ← recordOf names rest
    match ← nameOf names k with
    | none => return record
    | some name =>
      if record.any (·.1 == name) then throw (.duplicateField name) else return (name, v) :: record

/-- The values of a record with the given names. -/
def asRecord (names : List String) : Value → Outcome Record
  | .mapping entries => recordOf names entries
  | .sequence items =>
    if items.length ≤ names.length then .ok (names.zip items)
    else .error (.wrongType s!"sequence of {items.length}" s!"{names.length} elements")
  | v => v.wrong "a record"

/-- Reads a value that has to be there. -/
def Record.get {β : Type} (r : Record) (name : String) (read : Value → Outcome β) : Outcome β :=
  match r.lookup name with
  | some v => read v
  | none => .error (.missingField name)

/-- Reads a value that may be missing. -/
def Record.getD {β : Type} (r : Record) (name : String) (read : Value → Outcome β) (default : β) :
    Outcome β :=
  match r.lookup name with
  | some v => read v
  | none => .ok default

/-- Reads a value that may be missing or null. -/
def Record.get? {β : Type} (r : Record) (name : String) (read : Value → Outcome β) :
    Outcome (Option β) :=
  r.getD name (asOptional read) none

end Dataflow.Yaml.Value

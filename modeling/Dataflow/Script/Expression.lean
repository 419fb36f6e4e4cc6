import Dataflow.Expr.Basic
import Dataflow.Yaml.Writer

/-!
# Expressions in scripts

An expression of a script is a scalar, which stands for itself, or a mapping of an operator to its
operands. Columns are named or, by a number, counted.
-/

namespace Dataflow.Expr

/-- The error of a value that is no expression. -/
def invalid {β : Type} (v : Yaml.Value) (why : String) : Result β :=
  .error (.plan (.expression why v.text))

/-- The number that a value is. -/
def numberOf? (v : Yaml.Value) : Option Double :=
  match v, v.int? with
  | .double x, _ => some x
  | _, i => i.map .ofInt

/-- A reference to a column. -/
def columnOf (whole v : Yaml.Value) : Result Expr :=
  match v, v.int? with
  | .string name, _ => .ok (.named 0 name)
  | .double _, _ => invalid whole "column position"
  | _, some i => if i < 0 then invalid whole "column position" else .ok (.named 0 s!"${i}")
  | _, none => invalid whole "column reference"

/-- An integer of some width. -/
def integerOf (whole arg : Yaml.Value) (fits : Int → Bool) (make : Int → Value) (kind : String) :
    Result Expr :=
  match arg.int? with
  | some i => if fits i then .ok (.const (make i)) else invalid whole s!"{kind} literal"
  | none => invalid whole s!"{kind} literal"

/-- Constants whose type is written out. None if the word is no type. -/
def typedConstant? (whole : Yaml.Value) (word : String) (arg : Yaml.Value) : Option (Result Expr) :=
  match word, arg.bare with
  | "int", arg => some (integerOf whole arg fitsInt (fun i => .int (.ofInt i)) word)
  | "long", arg => some (integerOf whole arg fitsLong (fun i => .long (.ofInt i)) word)
  | "double", arg => some <| match numberOf? arg with
    | some x => .ok (.const (.double x))
    | none => invalid whole "double literal"
  | "float", arg => some <| match numberOf? arg with
    | some x => .ok (.const (.float x.convert))
    | none => invalid whole "float literal"
  | "str", .string s => some (.ok (.const (.charArray s)))
  | "chararray", .string s => some (.ok (.const (.charArray s)))
  | "str", _ => some (invalid whole "string literal")
  | "chararray", _ => some (invalid whole "string literal")
  | "bool", .bool b => some (.ok (.const (.boolean b)))
  | "bool", _ => some (invalid whole "boolean literal")
  | "null", _ => some (.ok (.const .null))
  | _, _ => none

/-- The operator with one operand that has a name. -/
def unaryOf? : String → Option UnaryOp
  | "not" => some .not
  | "is_null" => some .isNull
  | "neg" => some .negate
  | _ => none

/-- The operator with two operands that has a name. -/
def binaryOf? (word : String) : Option BinaryOp :=
  match Comparison.all.find? (·.name == word), Arithmetic.all.find? (·.name == word) with
  | some c, _ => some (.compare c)
  | none, some a => some (.arithmetic a)
  | none, none =>
    match word with
    | "and" => some .and
    | "or" => some .or
    | _ => none

/-- What an operator of a script does. -/
inductive Operation where
  | column
  | constant (value : Result Expr)
  | unary (op : UnaryOp)
  | binary (op : BinaryOp)
  | lookup
  | unknown

/-- The operator with a name. -/
def operationOf (whole : Yaml.Value) (word : String) (arg : Yaml.Value) : Operation :=
  if word = "col" then .column
  else if word = "lookup" then .lookup
  else match typedConstant? whole word arg, unaryOf? word, binaryOf? word with
    | some value, _, _ => .constant value
    | none, some op, _ => .unary op
    | none, none, some op => .binary op
    | none, none, none => .unknown

/-- Reads an expression. -/
def ofYaml : Yaml.Value → Result Expr
  | .null => .ok (.const .null)
  | .bool b => .ok (.const (.boolean b))
  | .int i => .ok (.const (.ofInt i))
  | .minusZero => .ok (.const (.ofInt 0))
  | .double x => .ok (.const (.double x))
  | .string s => .ok (.const (.charArray s))
  | .mapping [(key, arg)] =>
    let whole : Yaml.Value := .mapping [(key, arg)]
    match key.bare with
    | .string word =>
      match operationOf whole word arg with
      | .column => columnOf whole arg
      | .constant value => value
      | .unary op => do return .unary op (← ofYaml arg)
      | .binary op =>
        match arg with
        | .sequence [a, b] | .named _ (.sequence [a, b]) => do
          let a ← ofYaml a
          let b ← ofYaml b
          return .binary op a b
        | _ => invalid whole "expected 2 operands"
      | .lookup =>
        match arg with
        | .sequence [e, key] | .named _ (.sequence [e, key]) =>
          match key.bare with
          | .string key => do return (← ofYaml e).lookup key
          | _ => invalid whole "map key must be a string"
        | _ => invalid whole "lookup takes [map, key]"
      | .unknown => invalid whole s!"unknown operator '{word}'"
    | _ => invalid whole "operator must be a string"
  | v => invalid v "expected a scalar or a single-key map"
termination_by structural v => v

end Dataflow.Expr

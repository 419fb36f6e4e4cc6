import Dataflow.Error
import Dataflow.Schema.Basic
import Dataflow.Value.Basic

/-!
# Expressions

Expressions as a script author writes them: trees whose leaves are constants and columns. A column
may be given by name; `Expr.resolve` replaces names by places, after which an expression can be
evaluated on rows.
-/

namespace Dataflow

/-- How two values are compared. -/
inductive Comparison where
  | eq | ne | lt | le | gt | ge
deriving DecidableEq, Repr, Inhabited

/-- How two numbers are combined. -/
inductive Arithmetic where
  | add | sub | mul | div | mod
deriving DecidableEq, Repr, Inhabited

/-- Operations on one value. -/
inductive UnaryOp where
  /-- The value under a key of a map. -/
  | lookup (key : String)
  | not
  | isNull
  | negate
deriving DecidableEq, Repr, Inhabited

/-- Operations on two values. -/
inductive BinaryOp where
  | and
  | or
  | compare (c : Comparison)
  | arithmetic (a : Arithmetic)
deriving DecidableEq, Repr, Inhabited

/-- The name of a comparison in scripts. -/
def Comparison.name : Comparison → String
  | .eq => "eq"
  | .ne => "ne"
  | .lt => "lt"
  | .le => "le"
  | .gt => "gt"
  | .ge => "ge"

def Comparison.all : List Comparison := [.eq, .ne, .lt, .le, .gt, .ge]

def Comparison.symbol : Comparison → String
  | .eq => "=="
  | .ne => "!="
  | .lt => "<"
  | .le => "<="
  | .gt => ">"
  | .ge => ">="

/-- The name of an arithmetic operation in scripts. -/
def Arithmetic.name : Arithmetic → String
  | .add => "add"
  | .sub => "sub"
  | .mul => "mul"
  | .div => "div"
  | .mod => "mod"

def Arithmetic.all : List Arithmetic := [.add, .sub, .mul, .div, .mod]

def Arithmetic.symbol : Arithmetic → String
  | .add => "+"
  | .sub => "-"
  | .mul => "*"
  | .div => "/"
  | .mod => "%"

def BinaryOp.symbol : BinaryOp → String
  | .and => "AND"
  | .or => "OR"
  | .compare c => c.symbol
  | .arithmetic a => a.symbol

/-- An expression. `input` says which input of the operator a column belongs to. -/
inductive Expr where
  | const (v : Value)
  /-- A column by its place. The name is only shown. -/
  | column (input column : Nat) (name : Option String)
  /-- A column by its name, or by its place after a dollar sign. -/
  | named (input : Nat) (name : String)
  | unary (op : UnaryOp) (e : Expr)
  | binary (op : BinaryOp) (a b : Expr)
deriving Inhabited

namespace Expr

def lookup (e : Expr) (key : String) : Expr := .unary (.lookup key) e
def not (e : Expr) : Expr := .unary .not e
def isNull (e : Expr) : Expr := .unary .isNull e
def negate (e : Expr) : Expr := .unary .negate e
def and (a b : Expr) : Expr := .binary .and a b
def or (a b : Expr) : Expr := .binary .or a b

/-- The expression with all columns taken from the given input. -/
def onInput (input : Nat) : Expr → Expr
  | .const v => .const v
  | .column _ i name => .column input i name
  | .named _ name => .named input name
  | .unary op e => .unary op (e.onInput input)
  | .binary op a b => .binary op (a.onInput input) (b.onInput input)

/-- What is known about the inputs of an operator: their schemas, as far as known. -/
abbrev Inputs := List (Option Schema)

/-- The schema of an input, if it is connected and known. -/
def schemaOf? (inputs : Inputs) (input : Nat) : Option Schema := (inputs[input]?).join

/-- The place that a name such as `$3` gives directly. -/
def placeOf? (name : String) : Option Nat :=
  match name.toList with
  | '$' :: rest => Text.readCount? (String.ofList rest)
  | _ => none

/-- The column that a name means. A place is taken as it is; any other name has to be found in the
schema of the input. -/
def resolveName (inputs : Inputs) (operator : String) (input : Nat) (name : String) :
    Result Expr :=
  match placeOf? name with
  | some i => .ok (.column input i ((schemaOf? inputs input >>= (·[i]?)) >>= Field.name))
  | none =>
    match schemaOf? inputs input >>= (·.indexOf? name) with
    | some i => .ok (.column input i (some name))
    | none => .error (.unknownColumn name operator)

/-- Replaces every named column by its place. Errors name the operator that owns the expression. -/
def resolve (inputs : Inputs) (operator : String) : Expr → Result Expr
  | .const v => .ok (.const v)
  | .column input i name => .ok (.column input i name)
  | .named input name => resolveName inputs operator input name
  | .unary op e => do return .unary op (← e.resolve inputs operator)
  | .binary op a b => do
    let a ← a.resolve inputs operator
    let b ← b.resolve inputs operator
    return .binary op a b

end Expr

end Dataflow

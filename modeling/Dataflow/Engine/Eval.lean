import Dataflow.Engine.Error
import Dataflow.Expr.Formula

/-!
# Values of formulas

The value of a formula on one row of each input. Null stands for an unknown value: comparisons and
arithmetic with it are null, and conjunction and disjunction follow three-valued logic, their second
operand being looked at only if the first does not decide. Integers wrap; dividing by zero is null.
-/

namespace Dataflow.Formula

/-- Rows of the inputs, one of each. -/
abbrev Rows := List Row

/-- The value of a column; null if there is no such column. -/
def cell (rows : Rows) (input column : Nat) : Value :=
  ((rows[input]? >>= (·[column]?)).getD .null)

/-- The fault of applying an operation to a value it is not made for. -/
def undefined {β : Type} (operation : String) (v : Value) : RunResult β :=
  .error (.eval (.undefined operation v.type?))

/-- The truth of a value; none if it is unknown. -/
def truth : Value → RunResult (Option Bool)
  | .boolean b => .ok (some b)
  | .null => .ok none
  | v => undefined "boolean logic" v

/-- A truth as a value. -/
def ofTruth : Option Bool → Value
  | some b => .boolean b
  | none => .null

/-- Whether an order of two values satisfies a comparison. -/
def comparisonHolds (c : Comparison) (o : Ordering) : Bool :=
  match c with
  | .eq => o.isEq
  | .ne => o.isNe
  | .lt => o.isLT
  | .le => o.isLE
  | .gt => o.isGT
  | .ge => o.isGE

/-- The value of a comparison. -/
def compareValues (c : Comparison) (a b : Value) : Value :=
  if a.isNull || b.isNull then .null else .boolean (comparisonHolds c (a.order b))

def negateValue : Value → RunResult Value
  | .null => .ok .null
  | .int i => .ok (.int (-i))
  | .long i => .ok (.long (-i))
  | .float x => .ok (.float x.neg)
  | .double x => .ok (.double x.neg)
  | v => undefined "negation" v

/-- The value under a key; null if there is none. -/
def lookupValue (key : String) : Value → RunResult Value
  | .map entries => .ok ((Value.lookup? entries key).getD .null)
  | .null => .ok .null
  | v => undefined "map lookup" v

/-- Arithmetic on integers, before wrapping; none for a division by zero. Division goes towards
zero. -/
def intArithmetic : Arithmetic → Int → Int → Option Int
  | .add, x, y => some (x + y)
  | .sub, x, y => some (x - y)
  | .mul, x, y => some (x * y)
  | .div, x, y => if y = 0 then none else some (x.tdiv y)
  | .mod, x, y => if y = 0 then none else some (x.tmod y)

/-- Arithmetic on floating-point numbers; none for a division by zero. -/
def doubleArithmetic : Arithmetic → Double → Double → Option Double
  | .add, x, y => some (x.add y)
  | .sub, x, y => some (x.sub y)
  | .mul, x, y => some (x.mul y)
  | .div, x, y => if y.isZero then none else some (x.div y)
  | .mod, x, y => if y.isZero then none else some (x.rem y)

/-- Whether arithmetic with a value is done in 64 bits. -/
def isWide : Value → Bool
  | .double _ | .long _ => true
  | _ => false

/-- The value of an arithmetic operation. Two whole numbers give one, as wide as the wider of them;
all others are computed in 64 bits and then narrowed unless one of them is wide. -/
def arithmeticValue (op : Arithmetic) (a b : Value) : RunResult Value :=
  if a.isNull || b.isNull then .ok .null
  else match a, b with
    | .int x, .int y =>
      .ok (((intArithmetic op x.toInt y.toInt).map fun r => .int (.ofInt r)).getD .null)
    | a, b =>
      match a.asInt?, b.asInt? with
      | some x, some y => .ok (((intArithmetic op x y).map fun r => .long (.ofInt r)).getD .null)
      | _, _ =>
        match a.asDouble?, b.asDouble? with
        | some x, some y =>
          .ok (((doubleArithmetic op x y).map fun r =>
            if isWide a || isWide b then .double r else .float r.convert).getD .null)
        | none, _ => undefined "arithmetic" a
        | some _, none => undefined "arithmetic" b

/-- The value of a conjunction or disjunction; `decisive` is the truth that decides it alone. -/
def connective (decisive : Bool) (left right : RunResult Value) : RunResult Value := do
  let l ← truth (← left)
  if l = some decisive then return .boolean decisive
  let r ← truth (← right)
  if r = some decisive then return .boolean decisive
  return if l.isSome && r.isSome then .boolean (!decisive) else .null

/-- The operand at a place. -/
def operandValue (operands : List (RunResult Value)) (i : Nat) : RunResult Value :=
  (operands[i]?).getD (.error (.eval (.missingOperand i)))

/-- The value of a node from those of its operands. -/
def valueNode (rows : Rows) (_ : NodeId) (t : Term) (operands : List (RunResult Value)) :
    RunResult Value :=
  let a := operandValue operands 0
  let b := operandValue operands 1
  match t with
  | .const v => .ok v
  | .column input i _ => .ok (cell rows input i)
  | .unary (.lookup key) => do lookupValue key (← a)
  | .unary .not => do return ofTruth ((← truth (← a)).map (!·))
  | .unary .isNull => do return .boolean (← a).isNull
  | .unary .negate => do negateValue (← a)
  | .binary .and => connective false a b
  | .binary .or => connective true a b
  | .binary (.compare c) => do
    let x ← a
    let y ← b
    return compareValues c x y
  | .binary (.arithmetic op) => do
    let x ← a
    let y ← b
    arithmeticValue op x y

/-- The value of a tree of operands. -/
def Unfolding.value (rows : Rows) : Unfolding → RunResult Value :=
  Unfolding.fold (valueNode rows) fun id => .error (.core (.graph (.unknownNode id)))

/-- The value of a formula. -/
def value (f : Formula) (rows : Rows) : RunResult Value := do
  (f.unfold (← RunResult.ofResult f.root)).value rows

/-- Whether a formula is true; an unknown or other value does not count. -/
def holds (f : Formula) (rows : Rows) : RunResult Bool := do
  match ← f.value rows with
  | .boolean b => return b
  | _ => return false

end Dataflow.Formula

import Dataflow.Expr.Basic
import Dataflow.Graph.Copy
import Dataflow.Graph.Isomorphism
import Dataflow.Graph.Order
import Dataflow.Value.Text

/-!
# Formulas

A formula is an expression as a graph: every node is a constant, a column or an operation, and its
outputs lead to its operands in order. The root is the one node that is nobody's operand. Operands
may be shared.

What a formula means is said of its `Unfolding`, the tree of operands below a node, from which the
text, the type and the value of a formula are computed bottom up by `Unfolding.fold`. Every path of
an acyclic graph is at most as long as the graph is large, so that many levels suffice.
-/

namespace Dataflow

/-- One node of a formula. -/
inductive Term where
  | const (v : Value)
  /-- A column of an input; the name is only shown. -/
  | column (input column : Nat) (name : Option String)
  | unary (op : UnaryOp)
  | binary (op : BinaryOp)
deriving Inhabited

namespace Term

/-- How many operands the term needs. -/
def arity : Term → Nat
  | .const _ | .column _ _ _ => 0
  | .unary _ => 1
  | .binary _ => 2

/-- Whether two terms mean the same. The shown names of columns do not matter. -/
def same : Term → Term → Bool
  | .const v, .const w => v.equals w
  | .column i c _, .column j d _ => i == j && c == d
  | .unary a, .unary b => a == b
  | .binary a, .binary b => a == b
  | _, _ => false

def nameText : Option String → String
  | none => "None"
  | some n => "Some(" ++ Text.quoted n ++ ")"

def comparisonText : Comparison → String
  | .eq => "Eq"
  | .ne => "Ne"
  | .lt => "Lt"
  | .le => "Le"
  | .gt => "Gt"
  | .ge => "Ge"

def arithmeticText : Arithmetic → String
  | .add => "Add"
  | .sub => "Sub"
  | .mul => "Mul"
  | .div => "Div"
  | .mod => "Mod"

/-- The kind of a term and what is in it, for messages. -/
def text : Term → String
  | .const v => "Constant(" ++ v.text ++ ")"
  | .column i c n => s!"Project \x7b input: {i}, column: {c}, alias: {nameText n} \x7d"
  | .unary (.lookup key) => s!"MapLookup \x7b key: {Text.quoted key} \x7d"
  | .unary .not => "Not"
  | .unary .isNull => "IsNull"
  | .unary .negate => "Negative"
  | .binary .and => "And"
  | .binary .or => "Or"
  | .binary (.compare c) => s!"Compare({comparisonText c})"
  | .binary (.arithmetic a) => s!"Arithmetic({arithmeticText a})"

end Term

/-- An expression as a graph. -/
structure Formula where
  graph : Graph Term := {}
deriving Inhabited

/-- How a formula reads a column. -/
inductive ColumnUse where
  /-- Its whole value. -/
  | whole (input column : Nat)
  /-- Only what is under a key. -/
  | key (input column : Nat) (key : String)
deriving DecidableEq, Repr

namespace Formula

/-! ## Building -/

/-- Adds the operands of a tree below its node, each after the ones before it. -/
def plant : Expr → Graph Term → Result (NodeId × Graph Term)
  | .const v, g => .ok (g.add (.const v))
  | .column input i name, g => .ok (g.add (.column input i name))
  | .named _ name, _ => .error (.plan (.unresolvedColumn name))
  | .unary op e, g => do
    let (id, g) := g.add (.unary op)
    let (a, g) ← plant e g
    let g ← Graph.orError (g.connect id a)
    return (id, g)
  | .binary op x y, g => do
    let (id, g) := g.add (.binary op)
    let (a, g) ← plant x g
    let g ← Graph.orError (g.connect id a)
    let (b, g) ← plant y g
    let g ← Graph.orError (g.connect id b)
    return (id, g)

/-- The formula of an expression without named columns. -/
def ofExpr (e : Expr) : Result Formula := do
  let (_, g) ← plant e {}
  return ⟨g⟩

/-- The formula of a constant. -/
def constant (v : Value) : Formula := ⟨(Graph.empty.add (.const v)).2⟩

/-! ## Root and validity -/

/-- The one node without users. -/
def root (f : Formula) : Result NodeId :=
  match f.graph.sources with
  | [root] => .ok root
  | [] => .error (.plan .emptyExpression)
  | many => .error (.plan (.expressionRoots many.length))

/-- The term at the root. -/
def rootTerm (f : Formula) : Result Term := do Graph.orError (f.graph.content (← f.root))

/-- Checks that each listed node has as many operands as its term needs. -/
def checkOperands (f : Formula) : List (NodeId × Term) → Result Unit
  | [] => .ok ()
  | (id, t) :: rest =>
    let n := (f.graph.successors id).length
    if n = t.arity then f.checkOperands rest
    else .error (.plan (.operandCount t.text n t.arity))

/-- Checks that there is one root, no cycle, and every term has its operands. -/
def validate (f : Formula) : Result Unit := do
  discard f.root
  discard (Graph.orError f.graph.topologicalOrder)
  f.checkOperands f.graph.toList

/-! ## Unfolding -/

/-- The tree of operands below a node. -/
inductive Unfolding where
  | node (id : NodeId) (term : Term) (operands : List Unfolding)
  /-- A key without a node. -/
  | missing (id : NodeId)
deriving Inhabited

/-- The operands below a node down to the given number of levels. -/
def unfoldTo (g : Graph Term) : Nat → NodeId → Unfolding
  | 0, id => .missing id
  | depth + 1, id =>
    match g.vertices[id]? with
    | none => .missing id
    | some v => .node id v.content (v.outs.map (unfoldTo g depth))

/-- The tree of operands below a node. -/
def unfold (f : Formula) (id : NodeId) : Unfolding := unfoldTo f.graph f.graph.size id

namespace Unfolding

variable {β : Type}

mutual

/-- Computes a result for a tree from the results for its operands. -/
def fold (node : NodeId → Term → List β → β) (missing : NodeId → β) : Unfolding → β
  | .node id t operands => node id t (foldAll node missing operands)
  | .missing id => missing id

def foldAll (node : NodeId → Term → List β → β) (missing : NodeId → β) :
    List Unfolding → List β
  | [] => []
  | u :: rest => fold node missing u :: foldAll node missing rest

end

/-! ## Back to expressions -/

/-- The operand at a place. -/
def operandExpr (id : NodeId) (operands : List (Result Expr)) (i : Nat) : Result Expr :=
  (operands[i]?).getD (.error (.plan (.missingOperand id i)))

/-- The expression of a node from those of its operands. -/
def exprNode (id : NodeId) : Term → List (Result Expr) → Result Expr
  | .const v, _ => .ok (.const v)
  | .column input i name, _ => .ok (.column input i name)
  | .unary op, operands => do return .unary op (← operandExpr id operands 0)
  | .binary op, operands => do
    let a ← operandExpr id operands 0
    let b ← operandExpr id operands 1
    return .binary op a b

/-- The tree as an expression. -/
def toExpr : Unfolding → Result Expr :=
  fold exprNode fun id => .error (.graph (.unknownNode id))

/-! ## Text -/

/-- The text of a node from those of its operands; a question mark stands for a missing one. -/
def textNode (_ : NodeId) (t : Term) (operands : List String) : String :=
  let operand (i : Nat) := operands.getD i "?"
  match t with
  | .const v => v.literal
  | .column 0 _ (some name) => name
  | .column 0 c none => s!"${c}"
  | .column i _ (some name) => s!"[{i}]{name}"
  | .column i c none => s!"[{i}]${c}"
  | .unary (.lookup key) => operand 0 ++ "#'" ++ key ++ "'"
  | .unary .not => "NOT " ++ operand 0
  | .unary .isNull => operand 0 ++ " IS NULL"
  | .unary .negate => "-" ++ operand 0
  | .binary op => "(" ++ operand 0 ++ " " ++ op.symbol ++ " " ++ operand 1 ++ ")"

def text : Unfolding → String := fold textNode fun _ => "?"

/-! ## Type -/

/-- The type of a node from those of its operands. -/
def typeNode (inputs : Expr.Inputs) (_ : NodeId) (t : Term) (operands : List DataType) :
    DataType :=
  let operand (i : Nat) := operands.getD i .byteArray
  match t with
  | .const v => v.type?.getD .byteArray
  | .column input i _ => ((Expr.schemaOf? inputs input >>= (·[i]?)).map Field.type).getD .byteArray
  | .unary (.lookup _) => .byteArray
  | .unary .not | .unary .isNull | .binary .and | .binary .or | .binary (.compare _) => .boolean
  | .unary .negate => operand 0
  | .binary (.arithmetic _) =>
    match (operand 0).merge? (operand 1) with
    | some t => if t.isNumeric then t else .double
    | none => .double

/-- The type of the values of a tree on inputs with these schemas; raw bytes if it is not known. -/
def type (inputs : Expr.Inputs) : Unfolding → DataType :=
  fold (typeNode inputs) fun _ => .byteArray

/-! ## Conjunctions -/

/-- How deep conjunctions are nested below a node, itself included. -/
def conjunctionDepthNode (_ : NodeId) : Term → List Nat → Nat
  | .binary .and, operands => 1 + operands.foldl max 0
  | _, _ => 0

def conjunctionDepth : Unfolding → Nat := fold conjunctionDepthNode fun _ => 0

end Unfolding

/-- The formula as an expression. -/
def toExpr (f : Formula) : Result Expr := do (f.unfold (← f.root)).toExpr

/-- The text of a formula. -/
def text (f : Formula) : String :=
  match f.root with
  | .ok root => (f.unfold root).text
  | .error _ => "<invalid expression>"

/-- The type of the values of a formula. -/
def type (f : Formula) (inputs : Expr.Inputs) : DataType :=
  match f.root with
  | .ok root => (f.unfold root).type inputs
  | .error _ => .byteArray

/-! ## Conjunctions -/

/-- A copy of the part below a node. -/
def subformula (f : Formula) (id : NodeId) : Result Formula := do
  let (_, g) ← Graph.orError (f.graph.copyReachable id)
  return ⟨g⟩

/-- The edits that build a conjunction of copies of two formulas, given their roots. -/
def conjoin (a : Formula) (rootA : NodeId) (b : Formula) (rootB : NodeId) :
    Graph.Edit Term Unit := do
  let and ← Graph.step fun g => .ok (g.add (.binary .and))
  let l ← Graph.absorb a.graph rootA
  let r ← Graph.absorb b.graph rootB
  Graph.perform (·.connect and l)
  Graph.perform (·.connect and r)

/-- The formula that holds if both do; it is made of copies. -/
def conjunction (a b : Formula) : Result Formula := do
  let rootA ← a.root
  let rootB ← b.root
  match conjoin a rootA b rootB {} with
  | .ok _ g => return ⟨g⟩
  | .error fault _ => throw (.graph fault)

/-- Copies of the two operands, if the root is a conjunction. -/
def splitConjunction (f : Formula) : Result (Option (Formula × Formula)) := do
  let root ← f.root
  match ← Graph.orError (f.graph.content root) with
  | .binary .and =>
    match f.graph.successors root with
    | [l, r] => do
      let l ← f.subformula l
      let r ← f.subformula r
      return some (l, r)
    | others => throw (.plan (.conjunctionOperands others.length))
  | _ => return none

/-- Whether the root is a conjunction. -/
def isConjunction (f : Formula) : Bool :=
  match f.rootTerm with
  | .ok (.binary .and) => true
  | _ => false

/-- How deep conjunctions are nested at the root. -/
def conjunctionDepth (f : Formula) : Nat :=
  match f.root with
  | .ok root => (f.unfold root).conjunctionDepth
  | .error _ => 0

/-! ## Columns -/

/-- The input and place of a term that is a column. -/
def columnOf? : Term → Option (Nat × Nat)
  | .column input i _ => some (input, i)
  | _ => none

/-- The input and place of the column that the formula is, if it is nothing else. -/
def asColumn? (f : Formula) : Option (Nat × Nat) :=
  if f.graph.size ≠ 1 then none
  else match f.rootTerm with
    | .ok t => columnOf? t
    | .error _ => none

/-- The columns that are read, in the order of their nodes. -/
def columns (f : Formula) : List (Nat × Nat) := f.graph.toList.filterMap fun (_, t) => columnOf? t

/-- How the user of a column reads it. -/
def useBy (f : Formula) (input i : Nat) (user : NodeId) : ColumnUse :=
  match f.graph.content? user with
  | some (.unary (.lookup key)) => .key input i key
  | _ => .whole input i

/-- How each column is read by each of its users; a column without users is read as a whole. -/
def columnUses (f : Formula) : List ColumnUse :=
  f.graph.toList.flatMap fun (id, t) =>
    match columnOf? t with
    | none => []
    | some (input, i) =>
      match f.graph.predecessors id with
      | [] => [.whole input i]
      | users => users.map (f.useBy input i)

/-- Moves the columns at the listed nodes to the places that `place` gives, until one fails; the
formula reached so far is kept. -/
def remapAt (place : Nat → Nat → Result Nat) : List NodeId → EStateM Error Formula Unit
  | [] => pure ()
  | id :: rest => do
    let f ← get
    match f.graph.content? id with
    | none => throw (.graph (.unknownNode id))
    | some (.column input i name) =>
      match place input i with
      | .ok j => set ({ graph := f.graph.update id fun _ => .column input j name } : Formula)
      | .error e => throw e
    | some _ => pure ()
    remapAt place rest

/-- Moves every column to the place that `place` gives for its input and old place. -/
def remapColumns (place : Nat → Nat → Result Nat) : EStateM Error Formula Unit := do
  remapAt place (← get).graph.ids

/-- Whether two formulas are equal up to keys and shown names. -/
def same (f g : Formula) : Bool := f.graph.isIsomorphic Term.same g.graph

end Formula

end Dataflow

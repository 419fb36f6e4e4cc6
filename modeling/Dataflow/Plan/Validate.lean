import Dataflow.Plan.Basic

/-!
# Valid plans

What a plan has to satisfy before it is rewritten or run: consistent edges without cycles, inputs in
the right number and of the right kind, and formulas that are complete and read connected inputs.
-/

namespace Dataflow.Plan

/-- Checks that a load depends on stores only. -/
def checkLoadInputs (p : Plan) (op : Operator) : List NodeId → Result Unit
  | [] => .ok ()
  | q :: rest => do
    if (← p.typeOf q) ≠ .store then throw (.plan (.notAStore op.describe q))
    p.checkLoadInputs op rest

/-- Checks that a store leads to loads only. -/
def checkStoreOutputs (p : Plan) (op : Operator) : List NodeId → Result Unit
  | [] => .ok ()
  | s :: rest => do
    if (← p.typeOf s) ≠ .load then throw (.plan (.notALoad op.describe s))
    p.checkStoreOutputs op rest

/-- Checks that each formula is valid and reads only the inputs that there are. -/
def checkFormulas (op : Operator) (inputs : Nat) : List Formula → Result Unit
  | [] => .ok ()
  | f :: rest => do
    f.validate
    match f.columns.find? fun (input, _) => input ≥ inputs with
    | some (input, _) => throw (.plan (.inputRange op.describe input inputs))
    | none => checkFormulas op inputs rest

/-- Checks that a join has as many key lists as inputs. -/
def checkJoin (op : Operator) (inputs : Nat) : Result Unit :=
  match op.operation with
  | .join _ keys =>
    if keys.length = inputs then .ok ()
    else .error (.plan (.joinInputCount op.describe keys.length inputs))
  | _ => .ok ()

/-- Checks one operator. -/
def checkOperator (p : Plan) (id : NodeId) (op : Operator) : Result Unit := do
  let inputs := p.predecessors id
  let n := inputs.length
  if op.type = .load then p.checkLoadInputs op inputs
  else do
    if n < op.type.minInputs then throw (.missingInput op.describe n)
    if n > 1 && !op.type.allowsMultipleInputs then throw (.plan (.manyInputs op.describe n))
    if op.type = .store then p.checkStoreOutputs op (p.successors id)
    checkJoin op n
    checkFormulas op n op.operation.formulas

/-- Checks the listed operators in turn. -/
def checkOperators (p : Plan) : List (NodeId × Operator) → Result Unit
  | [] => .ok ()
  | (id, op) :: rest => do
    p.checkOperator id op
    p.checkOperators rest

/-- Checks that a plan is valid. -/
def validate (p : Plan) : Result Unit := do
  Graph.orError p.graph.checkConsistency
  discard (Graph.orError p.graph.topologicalOrder)
  p.checkOperators p.toList

end Dataflow.Plan

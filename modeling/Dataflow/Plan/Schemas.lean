import Dataflow.Plan.Basic

/-!
# Schemas in a plan

`Plan.schema` derives the output schema of an operator and of all operators before it that have none
yet, each once and after its inputs, and remembers them. The order comes from a depth-first walk
against the flow of rows; its stack holds operators to be entered and operators to be left, and an
operator is derived when it is left.
-/

namespace Dataflow.Plan

/-- One entry of the stack. -/
inductive Visit where
  | enter (id : NodeId)
  | leave (id : NodeId)
deriving DecidableEq, Repr

/-- How many steps an entry may still take: one to leave it, one more to enter it. -/
def Visit.steps : Visit → Nat
  | .enter _ => 2
  | .leave _ => 1

def stackSteps : List Visit → Nat
  | [] => 0
  | v :: rest => v.steps + stackSteps rest

theorem stackSteps_append (as bs : List Visit) :
    stackSteps (as ++ bs) = stackSteps as + stackSteps bs := by
  induction as with
  | nil => simp [stackSteps]
  | cons a rest ih => simp only [List.cons_append, stackSteps, ih]; omega

theorem stackSteps_map_enter (ids : List NodeId) :
    stackSteps (ids.map Visit.enter) = 2 * ids.length := by
  induction ids with
  | nil => rfl
  | cons a rest ih =>
    simp only [List.map_cons, stackSteps, Visit.steps, ih, List.length_cons]
    omega

/-- Whether the schema of an operator still has to be derived. -/
def isPending (p : Plan) (id : NodeId) : Bool :=
  match p.operator? id with
  | some op => !op.isDerived
  | none => true

/-- The inputs of an entered operator that still have to be entered. -/
def toEnter (p : Plan) (entered : List NodeId) (v : Vertex Operator) : List NodeId :=
  (dataIns v).filter fun q => !entered.contains q && p.isPending q

/-- The operators that are left while the stack is worked off, in that order. -/
def postOrder (p : Plan) (stack : List Visit) (entered : List NodeId) : List NodeId :=
  match stack with
  | [] => []
  | .leave id :: rest => id :: postOrder p rest entered
  | .enter id :: rest =>
    match _ : p.graph.vertices[id]? with
    | none => postOrder p rest entered
    | some v =>
      if _ : id ∈ entered then postOrder p rest entered
      else
        postOrder p
          ((p.toEnter (id :: entered) v).map Visit.enter ++ .leave id :: rest) (id :: entered)
termination_by
  stackSteps stack + 2 * Graph.unvisitedEdges dataIns entered p.graph.vertices.toList
decreasing_by
  · simp only [stackSteps, Visit.steps]; omega
  · simp only [stackSteps, Visit.steps]; omega
  · simp only [stackSteps, Visit.steps]; omega
  · rename_i hv hnew
    have h1 := Graph.unvisitedEdges_cons dataIns (Graph.mem_toList_of_getElem? hv) hnew
    have h2 : (p.toEnter (id :: entered) v).length ≤ (dataIns v).length := List.length_filter_le ..
    simp only [stackSteps_append, stackSteps_map_enter, stackSteps, Visit.steps]
    omega

/-- The operators without derived schema on which the schema of `id` depends, each after its inputs;
`id` is the last. -/
def pendingSchemas (p : Plan) (id : NodeId) : List NodeId := p.postOrder [.enter id] []

/-- The derived schemas and the names of the listed inputs of `user`. -/
def derivedInputs (p : Plan) (user : NodeId) :
    List NodeId → Result (List (Option Schema) × List (Option String))
  | [] => .ok ([], [])
  | q :: rest => do
    let op ← p.operator q
    match op.memo with
    | none => throw (.invariant (.underivedSchema q user))
    | some schema =>
      let (schemas, names) ← p.derivedInputs user rest
      return (schema :: schemas, op.name :: names)

/-- Derives the schema of an operator whose inputs have theirs. -/
def deriveOne (id : NodeId) : Edit Unit := do
  let p ← get
  let (schemas, names) ← ofResult (p.derivedInputs id (p.dataInputs id))
  let op ← ofResult (p.operator id)
  let (schema, operation, uids) ← ofResult (op.deriveSchema schemas names p.uids)
  let graph := p.graph.update id fun op => { op with operation, memo := some schema }
  set { p with uids, graph }

/-- The output schema of an operator; `none` if it is unknown. -/
def schema (id : NodeId) : Edit (Option Schema) := do
  let p ← get
  let op ← ofResult (p.operator id)
  match op.memo with
  | some schema => return schema
  | none =>
    (p.pendingSchemas id).forM deriveOne
    return (← ofResult ((← get).operator id)).schema?

/-- Derives all schemas. -/
def resolveSchemas : Edit Unit := do
  let order ← ofResult (Graph.orError (← get).graph.topologicalOrder)
  order.forM fun id => discard (schema id)

/-- The schemas of the inputs from which rows come. -/
def inputSchemas (id : NodeId) : Edit (List (Option Schema)) := do
  ((← get).dataInputs id).mapM schema

/-- The identity of a column of an input, if it is known. -/
def columnUid (owner : NodeId) (input column : Nat) : Edit (Option Uid) := do
  match ((← get).dataInputs owner)[input]? with
  | none => return none
  | some q => return ((← schema q) >>= (·[column]?)).map Field.uid

/-- Puts an identity in its place among ascending ones. -/
def insertUid (uid : Uid) : List Uid → List Uid
  | [] => [uid]
  | u :: rest =>
    if uid.val < u.val then uid :: u :: rest
    else if uid = u then u :: rest
    else u :: insertUid uid rest

/-- The ascending identities of the listed columns; none if one of them is not known. -/
def columnUids (owner : NodeId) : List (Nat × Nat) → List Uid → Edit (Option (List Uid))
  | [], uids => return some uids
  | (input, column) :: rest, uids => do
    match ← columnUid owner input column with
    | none => return none
    | some uid => columnUids owner rest (insertUid uid uids)

/-- The identities of the columns that a formula of an operator reads. -/
def formulaUids (owner : NodeId) (f : Formula) : Edit (Option (List Uid)) :=
  columnUids owner f.columns []

end Dataflow.Plan

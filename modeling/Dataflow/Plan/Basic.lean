import Dataflow.Plan.Derive

/-!
# Plans

A plan is a graph of operators, whose edges lead from where rows come from to where they go, and the
supply of identities for its columns. An edge from a store to a load carries no rows; it says that
the load reads what the store writes.

Plans are changed by passes (`Plan.Edit`) that keep the plan reached when they fail. Whatever
changes an operator or its inputs makes the derived schemas of the operator and of all behind it be
forgotten.
-/

namespace Dataflow

/-- Operators in order, and the identities of their columns. -/
structure Plan where
  graph : Graph Operator := {}
  uids : UidSupply := {}
deriving Inhabited

namespace Plan

/-- A pass over a plan that may stop with an error; the plan reached so far is kept. -/
abbrev Edit := EStateM Error Plan

/-- The plan without operators whose column identities start at a seed. -/
def startingAt (seed : UInt64) : Plan := { uids := .startingAt seed }

def size (p : Plan) : Nat := p.graph.size

def contains (p : Plan) (id : NodeId) : Bool := p.graph.contains id

def ids (p : Plan) : List NodeId := p.graph.ids

/-- Keys and operators in the order in which they were added. -/
def toList (p : Plan) : List (NodeId × Operator) := p.graph.toList

def operator? (p : Plan) (id : NodeId) : Option Operator := p.graph.content? id

def operator (p : Plan) (id : NodeId) : Result Operator := Graph.orError (p.graph.content id)

def typeOf (p : Plan) (id : NodeId) : Result OperatorType := do return (← p.operator id).type

def predecessors (p : Plan) (id : NodeId) : List NodeId := p.graph.predecessors id

def successors (p : Plan) (id : NodeId) : List NodeId := p.graph.successors id

/-- The inputs of a vertex from which rows come; what leads into a load carries none. -/
def dataIns (v : Vertex Operator) : List NodeId :=
  if v.content.type = .load then [] else v.ins

/-- The inputs from which rows come to an operator. -/
def dataInputs (p : Plan) (id : NodeId) : List NodeId :=
  match p.graph.vertices[id]? with
  | some v => dataIns v
  | none => []

/-- The operator with the given name that was added last. -/
def findAlias? (p : Plan) (name : String) : Option NodeId :=
  (p.toList.filter fun (_, op) => op.name == some name).getLast?.map Prod.fst

/-! ## Forgetting schemas -/

/-- Forgets the derived schemas of the listed operators. -/
def forgetAt (p : Plan) (ids : List NodeId) : Plan :=
  { p with graph := ids.foldl (fun g id => g.update id Operator.forget) p.graph }

/-- Forgets the derived schemas of an operator and of all behind it. -/
def invalidate (p : Plan) (id : NodeId) : Plan := p.forgetAt (p.graph.descendants id)

/-- Forgets all derived schemas. -/
def invalidateAll (p : Plan) : Plan := p.forgetAt p.ids

/-! ## Changing plans -/

/-- Runs a graph edit on the graph of the plan. -/
def onGraph {β : Type} (edit : Graph.Edit Operator β) : Edit β := fun p =>
  match edit p.graph with
  | .ok b g => .ok b { p with graph := g }
  | .error fault g => .error (.graph fault) { p with graph := g }

/-- Stops with the error of a result, if it is one. -/
def ofResult {β : Type} : Result β → Edit β
  | .ok b => pure b
  | .error e => throw e

/-- Adds an operator without edges; its columns get identities. -/
def add (p : Plan) (op : Operator) : NodeId × Plan :=
  let (operation, uids) := op.operation.withUids p.uids
  let (id, graph) := p.graph.add { op with operation, memo := none }
  (id, { graph, uids })

/-- Adds an operator without edges; its columns get identities. -/
def insert (op : Operator) : Edit NodeId := fun p =>
  let (id, p) := p.add op
  .ok id p

/-- Removes an operator without edges and returns it. -/
def remove (id : NodeId) : Edit Operator := onGraph (Graph.step (·.remove id))

/-- Changes an operator. -/
def update (id : NodeId) (f : Operator → Operator) : Edit Unit := do
  let p ← get
  unless p.contains id do throw (.graph (.unknownNode id))
  let p := p.invalidate id
  set { p with graph := p.graph.update id f }

/-- Whether an edge may lead from one operator to another: only stores lead to loads and only to
loads, and most operators take a single input. -/
def checkConnect (p : Plan) (a b : NodeId) : Result Unit := do
  let source ← p.operator a
  let target ← p.operator b
  match source.type, target.type with
  | .store, .load => return ()
  | _, .load => throw (.plan (.feedsLoad source.describe target.describe))
  | .store, _ => throw (.plan (.storeOutput source.describe target.describe))
  | _, t =>
    if !t.allowsMultipleInputs && !(p.predecessors b).isEmpty then
      throw (.plan (.singleInput target.describe))

/-- Adds an edge at the given slots. -/
def connectAt (a : NodeId) (i : Nat) (b : NodeId) (j : Nat) : Edit Unit := do
  ofResult ((← get).checkConnect a b)
  onGraph (Graph.perform (·.connectAt a i b j))
  modify (·.invalidate b)

/-- Adds an edge behind the other outputs and inputs. -/
def connect (a b : NodeId) : Edit Unit := do
  ofResult ((← get).checkConnect a b)
  onGraph (Graph.perform (·.connect a b))
  modify (·.invalidate b)

/-- Removes an edge and returns the slots that it had. -/
def disconnect (a b : NodeId) : Edit (Nat × Nat) := do
  let slots ← onGraph (Graph.step (·.disconnect a b))
  modify (·.invalidate b)
  return slots

/-- Places an operator without edges on an edge. -/
def insertBetween (a x b : NodeId) : Edit Unit := do
  onGraph (Graph.insertBetween a x b)
  modify (·.invalidate x)

/-- Takes an operator with at most one input out of its place, runs `detach` to do so, and forgets
the schemas that depended on it. -/
def detaching {β : Type} (x : NodeId) (detach : Graph.Edit Operator β) : Edit β := do
  let outputs := (← get).successors x
  modify (·.invalidate x)
  let b ← onGraph detach
  modify fun p => outputs.foldl Plan.invalidate p
  return b

/-- Removes an operator with at most one input; its input then leads to its outputs. -/
def bypass (x : NodeId) : Edit Operator := detaching x (Graph.bypass x)

/-- Like `bypass`, but the operator stays in the plan, without edges. -/
def spliceOut (x : NodeId) : Edit Unit := detaching x (Graph.spliceOut x)

/-- Adds an operator and connects the inputs to it in order. -/
def append (op : Operator) (inputs : List NodeId) : Edit NodeId := do
  let id ← insert op
  inputs.forM (connect · id)
  return id

/-- Whether two plans are equal up to keys. -/
def same (p q : Plan) : Bool := p.graph.isIsomorphic Operator.same q.graph

/-- A copy of the plan with fresh keys, and which key became which. -/
def clone (p : Plan) : Result (Graph.Renaming × Plan) := do
  let (names, graph) ← Graph.orError p.graph.clone
  return (names, { p with graph })

end Plan

end Dataflow

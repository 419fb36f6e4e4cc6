import Dataflow.Location
import Dataflow.Script.Draft

/-!
# Sessions

A session takes statements one by one, brings their locations into canonical form, and keeps the
stores in the order in which they were added. At the end of a batch, `compileBatch` makes each load
wait for the stores that write what it reads.
-/

namespace Dataflow

/-- The state of a session. -/
structure Session where
  draft : Draft := {}
  resolver : Location.Resolver := .path
  /-- The directory that relative locations start from. -/
  directory : String
  stores : List NodeId := []
  /-- Whether the batch was compiled since the last statement. -/
  compiled : Bool := false
deriving Inhabited

namespace Session

/-- A step of a session; a step that fails keeps what it had done by then. -/
abbrev Edit := EStateM Error Session

/-- Changes the draft. -/
def onDraft {β : Type} (edit : Draft.Edit β) : Edit β := fun s =>
  match edit s.draft with
  | .ok b draft => .ok b { s with draft }
  | .error e draft => .error e { s with draft }

/-- Changes the plan. -/
def onPlan {β : Type} (edit : Plan.Edit β) : Edit β := onDraft (Draft.onPlan edit)

def plan (s : Session) : Plan := s.draft.plan

/-- The operator that a name means. -/
def node (s : Session) (name : String) : Result NodeId := s.draft.node name

/-- The canonical form of a location. -/
def locate (location : String) : Edit String := do
  let s ← get
  onDraft (Draft.ofResult (s.resolver.resolve location s.directory))

/-- Carries a statement out. Returns the operators that go by its names. -/
def register (statement : Statement) : Edit (List NodeId) := do
  modify ({ · with compiled := false })
  match statement with
  | .load name path columns =>
    let location ← locate path
    onDraft (Statement.apply (.load name location columns))
  | .store input path =>
    let location ← locate path
    let id ← onDraft (Draft.store input location)
    modify fun s => { s with stores := s.stores ++ [id] }
    return [id]
  | other => onDraft other.apply

/-! ## Batches -/

/-- The operators of one type with their locations. -/
def located (p : Plan) (type : OperatorType) : List (NodeId × String) :=
  p.toList.filterMap fun (id, op) =>
    if op.type = type then op.operation.location?.map fun location => (id, location) else none

/-- Makes a load wait for a store that writes its location, unless it does so already or the store
waits for the load. Returns how many edges were added. -/
def awaitStore (load store : NodeId × String) : Plan.Edit Nat := do
  let p ← get
  if load.2 ≠ store.2 || p.graph.isConnected store.1 load.1 || p.graph.reaches load.1 store.1 then
    return 0
  Plan.connect store.1 load.1
  return 1

/-- Makes all loads wait for the stores that write what they read. Returns how many edges were
added. -/
def compileBatch : Edit Nat := do
  let p := (← get).plan
  let added ← onPlan <| (located p .load).mapM fun load =>
    (located p .store).mapM (awaitStore load)
  modify ({ · with compiled := true })
  return added.flatten.foldr (· + ·) 0

/-! ## Names -/

/-- Forgets what the plan no longer has; returns how many names changed. -/
def refresh (s : Session) : Nat × Session :=
  let (changed, draft) := s.draft.refresh
  (changed, { s with draft, stores := s.stores.filter draft.plan.contains })

/-- Whether what a name means is stored. -/
def isStored (s : Session) (name : String) : Result Bool := do
  let id ← s.node name
  return s.stores.any (s.plan.graph.reaches id)

/-! ## Copies -/

/-- The key that a copied operator has now. -/
def renamed (names : Graph.Renaming) (id : NodeId) : Result NodeId :=
  match names[id]? with
  | some id' => .ok id'
  | none => .error (.graph (.unknownNode id))

/-- A copy of the session that shares nothing with it. -/
def snapshot (s : Session) : Result Session := do
  let (names, plan) ← s.plan.clone
  let aliases ← s.draft.liveNames.toList.mapM fun (name, id) => do
    return (name, ← renamed names id)
  let stores ← s.stores.mapM (renamed names)
  return { s with draft := { plan, names := .ofList aliases }, stores }

/-- Takes an operator with all its edges out of a plan. -/
def cutOut (id : NodeId) : Plan.Edit Unit := do
  ((← get).predecessors id).forM fun p => discard (Plan.disconnect p id)
  ((← get).successors id).forM fun s => discard (Plan.disconnect id s)
  discard (Plan.remove id)

/-- The part of the plan that an operator depends on. -/
def onlyAncestors (target : NodeId) : Plan.Edit Unit := do
  let p ← get
  let kept := p.graph.ancestors target
  let order ← Plan.ofResult (Graph.orError p.graph.reverseTopologicalOrder)
  (order.filter (!kept.contains ·)).forM cutOut

/-- A copy of the part of the plan on which what a name means depends. -/
def planFor (s : Session) (name : String) : Result Plan := do
  let id ← s.node name
  let (names, plan) ← s.plan.clone
  let target ← renamed names id
  match onlyAncestors target plan with
  | .ok _ plan => return plan
  | .error e _ => throw e

end Session

end Dataflow

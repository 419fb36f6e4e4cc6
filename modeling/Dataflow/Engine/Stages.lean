import Dataflow.Engine.Error
import Dataflow.Plan.Schemas
import Dataflow.Plan.Validate

/-!
# Stages

A plan is run in stages, one for each store. A stage consists of the operators from which rows come
to the store, in topological order; it depends on the stages whose output its loads read.
-/

namespace Dataflow

/-- The operators that produce the output of one store. -/
structure Stage where
  store : NodeId
  location : String
  /-- In topological order; the store is the last one. -/
  operators : List NodeId
  /-- The places of the stages whose output is loaded, ascending. -/
  dependsOn : List Nat
deriving DecidableEq, Repr, Inhabited

/-- A plan that is ready to be run. -/
structure Prepared where
  plan : Plan
  stages : List Stage
  /-- How wide the rows of operators with a known schema are. -/
  widths : List (NodeId × Nat)
deriving Inhabited

namespace Prepared

/-- The width of the rows of the listed operators, where it is known. -/
def widthsOf : List NodeId → Plan.Edit (List (NodeId × Nat))
  | [] => return []
  | id :: rest => do
    let schema ← Plan.schema id
    let others ← widthsOf rest
    return match schema with
      | some s => (id, s.length) :: others
      | none => others

/-- The operators from which rows come to `id`, itself included. -/
def members (plan : Plan) (id : NodeId) : List NodeId := plan.graph.walk Plan.dataIns [id] []

/-- The operators of a type among the listed ones. -/
def ofType (plan : Plan) (type : OperatorType) (ids : List NodeId) : List NodeId :=
  ids.filter fun id => (plan.operator? id).map Operator.type == some type

/-- The stage of a store, given the order of all operators and of all stores. -/
def stageOf (plan : Plan) (order stores : List NodeId) (store : NodeId) : RunResult Stage := do
  let inStage := members plan store
  let operators := order.filter (inStage.contains ·)
  let read := (ofType plan .load operators).flatMap plan.predecessors
  let dependsOn := (List.range stores.length).filter fun i => (stores[i]?).any (read.contains ·)
  match plan.operator? store >>= (·.operation.location?) with
  | some location => return { store, location, operators, dependsOn }
  | none => throw (.invalid (.storeWithoutLocation store))

/-- Prepares a valid plan. -/
def ofPlan (plan : Plan) : RunResult Prepared := do
  RunResult.ofResult plan.validate
  let order ← RunResult.ofResult (Graph.orError plan.graph.topologicalOrder)
  match widthsOf order plan with
  | .error e _ => throw (.core e)
  | .ok widths plan =>
    let stores := ofType plan .store order
    let stages ← stores.mapM (stageOf plan order stores)
    return { plan, stages, widths }

/-- The width of the rows of an operator, if it is known. -/
def width? (p : Prepared) (id : NodeId) : Option Nat := p.widths.lookup id

end Prepared

end Dataflow

import Dataflow.Engine.Relation
import Dataflow.Engine.Stages
import Dataflow.Engine.Storage
import Dataflow.Operator.Basic

/-!
# Running plans

The stages of a prepared plan are run in order, each as one job. A job that fails leaves nothing at
its location, and the stages that depend on a job that did not complete are not run.
-/

namespace Dataflow

/-- How a job ended. -/
inductive JobStatus where
  | completed
  | failed
  /-- It was not run, because a job before it did not complete. -/
  | pending
deriving DecidableEq, Repr, Inhabited

def JobStatus.name : JobStatus → String
  | .completed => "completed"
  | .failed => "failed"
  | .pending => "pending"

/-- What became of a stage. -/
structure Job where
  location : String
  status : JobStatus
  records : List Row := []
  error : Option String := none
deriving Inhabited

def Job.isCompleted (j : Job) : Bool := j.status == .completed

namespace Engine

/-- The rows of the operators evaluated so far. -/
abbrev Results := List (NodeId × Relation)

/-- Reads the records of a load. -/
def load (l : Load) (s : Storage) : Result Relation := do
  let handle ← Storage.Handle.pointAt l.location
  match l.declared with
  | some schema => handle.checkSchema schema s
  | none => pure ()
  let rows ← handle.read s
  return match l.requiredKeys with
    | some table => rows.map (Relation.restrictRow table)
    | none => rows

/-- Writes the records of a store. -/
def store (location : String) (rows : Relation) (s : Storage) : Result Storage := do
  (← Storage.Handle.pointAt location).write rows s

/-- The only input. -/
def single (inputs : List Relation) : RunResult Relation :=
  match inputs with
  | rel :: _ => .ok rel
  | [] => .error (.invalid .missingInput)

/-- The rows that an operator produces. Only a store changes the storage. -/
def evalOperation (p : Prepared) (id : NodeId) (operation : Operation) (inputs : List Relation)
    (s : Storage) : RunResult (Relation × Storage) := do
  match operation with
  | .load l => return (← RunResult.ofResult (load l s), s)
  | .store location =>
    let rows ← single inputs
    return (rows, ← RunResult.ofResult (store location rows s))
  | .filter f => return (← Relation.filter f (← single inputs), s)
  | .splitOutput f => return (← Relation.filter f (← single inputs), s)
  | .split => return (← single inputs, s)
  | .forEach items => return (← Relation.generate items (← single inputs), s)
  | .join type keys =>
    return (← Relation.join type keys inputs ((p.plan.predecessors id).map p.width?), s)
  | .cross => return (Relation.cross inputs, s)
  | .union _ => return (inputs.flatten, s)
  | .distinct => return (Relation.distinct (← single inputs), s)
  | .sort keys => return (← Relation.sort keys (← single inputs), s)
  | .limit n => return ((← single inputs).take n, s)

/-- The rows of the listed inputs of an operator. -/
def inputRows (results : Results) (id : NodeId) : List NodeId → RunResult (List Relation)
  | [] => .ok []
  | q :: rest =>
    match results.lookup q with
    | none => .error (.invalid (.inputNotEvaluated q id))
    | some rel => do return rel :: (← inputRows results id rest)

/-- Evaluates the listed operators in turn. -/
def evalOperators (p : Prepared) : List NodeId → Results → Storage → RunResult (Results × Storage)
  | [], results, s => .ok (results, s)
  | id :: rest, results, s => do
    let op ← RunResult.ofResult (p.plan.operator id)
    let inputs ← inputRows results id (p.plan.dataInputs id)
    match evalOperation p id op.operation inputs s with
    | .error e => throw (.inOperator op.describe e)
    | .ok (rel, s) => evalOperators p rest ((id, rel) :: results) s

/-- Runs a stage; returns the records that were stored. -/
def runStage (p : Prepared) (stage : Stage) (s : Storage) : RunResult (Relation × Storage) := do
  let (results, s) ← evalOperators p stage.operators [] s
  match results.lookup stage.store with
  | some rel => return (rel, s)
  | none => throw (.invalid (.storeNotEvaluated stage.store))

/-- The first job on which the stage depends and which did not complete. -/
def blocker? (jobs : List Job) (stage : Stage) : Option Job :=
  (stage.dependsOn.filterMap (jobs[·]?)).find? (!·.isCompleted)

/-- Runs a stage, unless a job before it did not complete. -/
def runJob (p : Prepared) (jobs : List Job) (stage : Stage) (s : Storage) : Job × Storage :=
  match blocker? jobs stage with
  | some job =>
    ({ location := stage.location, status := .pending,
       error := some s!"upstream job for '{job.location}' did not complete" }, s)
  | none =>
    match runStage p stage s with
    | .ok (records, s) => ({ location := stage.location, status := .completed, records }, s)
    | .error e =>
      ({ location := stage.location, status := .failed, error := some e.message },
        s.erase stage.location)

/-- Runs the listed stages behind the jobs done before. -/
def runStages (p : Prepared) : List Stage → List Job → Storage → List Job × Storage
  | [], jobs, s => (jobs, s)
  | stage :: rest, jobs, s =>
    let (job, s) := runJob p jobs stage s
    runStages p rest (jobs ++ [job]) s

/-- Runs all stages. -/
def execute (p : Prepared) (s : Storage) : List Job × Storage := runStages p p.stages [] s

end Engine

end Dataflow

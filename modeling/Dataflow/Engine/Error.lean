import Dataflow.Error
import Dataflow.Json.Fault
import Dataflow.Schema.DataType

/-!
# Errors of running plans

Running a plan can fail because of the plan, because of how it was prepared, because an expression
has no value, or because stored text is no JSON.
-/

namespace Dataflow

/-- Why an expression has no value. -/
inductive EvalFault where
  /-- An operation was applied to a value of a type it is not made for; null has no type. -/
  | undefined (operation : String) (found : Option DataType)
  | missingOperand (position : Nat)
  | other (text : String)
deriving DecidableEq, Repr, Inhabited

/-- Why a plan cannot be run as it was prepared. -/
inductive RunFault where
  | inputNotEvaluated (input operator : NodeId)
  | storeNotEvaluated (store : NodeId)
  | storeWithoutLocation (store : NodeId)
  | missingInput
  | keyLists (lists inputs : Nat)
  | outerJoinInputs
  | notAnArray (record : Nat)
  | other (text : String)
deriving DecidableEq, Repr, Inhabited

/-- Why preparing or running a plan failed. -/
inductive RunError where
  | core (e : Error)
  | invalid (fault : RunFault)
  | eval (fault : EvalFault)
  /-- The error arose in an operator, given by its description. -/
  | inOperator (operator : String) (cause : RunError)
  /-- A line of stored text is no JSON. -/
  | json (fault : Json.Fault)
deriving DecidableEq, Repr, Inhabited

def EvalFault.message : EvalFault → String
  | .undefined operation found =>
    s!"{operation} is not defined for " ++ (found.map DataType.name).getD "null"
  | .missingOperand position => s!"operand {position} missing"
  | .other text => text

def RunFault.message : RunFault → String
  | .inputNotEvaluated input operator => s!"input {input} of {operator} not evaluated"
  | .storeNotEvaluated store => s!"store {store} not evaluated"
  | .storeWithoutLocation store => s!"store {store} has no location"
  | .missingInput => "missing input"
  | .keyLists lists inputs => s!"{lists} key lists for {inputs} join inputs"
  | .outerJoinInputs => "outer joins take exactly two inputs"
  | .notAnArray record => s!"record {record} is not a JSON array"
  | .other text => text

/-- The full text of an error. -/
def RunError.message : RunError → String
  | .core e => e.message
  | .invalid fault => s!"invalid plan: {fault.message}"
  | .eval fault => s!"evaluation failed: {fault.message}"
  | .inOperator operator cause => s!"{operator}: {cause.message}"
  | .json fault => s!"serialization: {fault.message}"

/-- The result of running something. -/
abbrev RunResult := Except RunError

/-- The outcome of a planning step as an outcome of running. -/
def RunResult.ofResult {β : Type} : Result β → RunResult β
  | .ok b => .ok b
  | .error e => .error (.core e)

end Dataflow

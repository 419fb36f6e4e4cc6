import Dataflow.Digest
import Dataflow.Json.Basic
import Dataflow.Plan.Basic
import Dataflow.Plan.Schemas

/-!
# The text of plans, and listings

A plan as text has one operator per line, in topological order, and names the inputs of an operator
by their lines. The text, and with it the fingerprint of a plan, does not depend on keys.
-/

namespace Dataflow

namespace Plan

/-- The line of an operator, given the order of all operators. -/
def line (p : Plan) (order : List NodeId) (number : Nat) (id : NodeId) (op : Operator) : String :=
  let inputs := (p.predecessors id).map fun q => toString (order.idxOf q)
  s!"{number}: " ++ op.text ++ " <- [" ++ Text.join "," inputs ++ "]\n"

/-- The lines of the listed operators. -/
def linesOf (p : Plan) (order : List NodeId) : List (NodeId × Nat) → Result String
  | [] => .ok ""
  | (id, number) :: rest => do
    let op ← p.operator id
    return p.line order number id op ++ (← p.linesOf order rest)

/-- The text of a plan without cycles. -/
def canonicalText (p : Plan) : Result String := do
  let order ← Graph.orError p.graph.topologicalOrder
  p.linesOf order order.zipIdx

/-- The text of a plan. -/
def text (p : Plan) : String :=
  match p.canonicalText with
  | .ok s => s
  | .error e => s!"<invalid plan: {e.message}>"

/-- The digest of the text of a plan. -/
def fingerprint (p : Plan) : Result Digest := do return .ofText (← p.canonicalText)

end Plan

/-!
## Listings of plans

A listing shows a plan to people: its operators in topological order, each with its inputs and its
output schema, under a heading with the fingerprint.
-/

/-- One operator of a listing. -/
structure ListingRow where
  index : Nat
  operator : String
  /-- The rows of the inputs. -/
  inputs : List Nat
  /-- The text of the output schema, if it is known. -/
  schema : Option String
deriving DecidableEq, Repr, Inhabited

/-- A row of a listing as JSON. -/
def ListingRow.toJson (row : ListingRow) : Json := .object [
  ("index", .int row.index),
  ("operator", .string row.operator),
  ("inputs", .array (row.inputs.map fun (i : Nat) => .int i)),
  ("schema", (row.schema.map Json.string).getD .null)]

namespace Plan

/-- The rows of the listed operators. -/
def listingOf (order : List NodeId) : List (NodeId × Nat) → Edit (List ListingRow)
  | [] => return []
  | (id, index) :: rest => do
    let schema ← schema id
    let p ← get
    let op ← ofResult (p.operator id)
    let inputs := (p.predecessors id).filterMap (order.idxOf? ·)
    return { index, operator := op.text, inputs, schema := schema.map Schema.text } ::
      (← listingOf order rest)

/-- The rows of a listing. -/
def listing : Edit (List ListingRow) := do
  let order ← ofResult (Graph.orError (← get).graph.topologicalOrder)
  listingOf order order.zipIdx

/-- A row of a listing as text. -/
def listingRowText (row : ListingRow) : String :=
  let inputs := if row.inputs.isEmpty then ""
    else " <- [" ++ Text.join "," (row.inputs.map toString) ++ "]"
  s!"  {row.index}: " ++ row.operator ++ inputs ++ "\n       schema: " ++
    row.schema.getD "unknown" ++ "\n"

/-- A listing as text. -/
def explain : Edit String := do
  let rows ← listing
  let fingerprint ← ofResult (← get).fingerprint
  return s!"plan {fingerprint.short} ({rows.length} operators)\n" ++
    String.join (rows.map listingRowText)

end Plan

end Dataflow

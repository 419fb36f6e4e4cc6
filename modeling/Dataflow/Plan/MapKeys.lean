import Dataflow.Plan.Schemas

/-!
# Map keys that loads need

A map column of which only some keys are ever looked up need not be loaded in full. The analysis
goes through the plan against the flow of rows and collects, by the identity of columns, the keys
that are looked up and the columns whose whole value is needed. It gives up where a schema is
unknown.
-/

namespace Dataflow

/-- What is needed of columns. -/
structure Needs where
  /-- Keys looked up in a column. -/
  keys : List (Uid × List String) := []
  /-- Columns that are needed as a whole. -/
  whole : List Uid := []
deriving Inhabited

namespace Needs

/-- Puts a key in its place among ascending ones. -/
def insertKey (key : String) : List String → List String
  | [] => [key]
  | k :: rest =>
    if key < k then key :: k :: rest
    else if key = k then k :: rest
    else k :: insertKey key rest

/-- Notes keys of a column. -/
def addKeys (uid : Uid) (keys : List String) : List (Uid × List String) → List (Uid × List String)
  | [] => [(uid, keys.foldl (fun all k => insertKey k all) [])]
  | (u, all) :: rest =>
    if u = uid then (u, keys.foldl (fun all k => insertKey k all) all) :: rest
    else (u, all) :: addKeys uid keys rest

def needKeys (n : Needs) (uid : Uid) (keys : List String) : Needs :=
  { n with keys := addKeys uid keys n.keys }

def needWhole (n : Needs) (uids : List Uid) : Needs := { n with whole := uids ++ n.whole }

/-- What is needed of an output column of a union is needed of the columns it comes from. -/
def throughUnion (n : Needs) (f : Field) : Needs :=
  let n := if n.whole.contains f.uid then n.needWhole f.parents else n
  match n.keys.lookup f.uid with
  | some keys => f.parents.foldl (fun n p => n.needKeys p keys) n
  | none => n

/-- The keys needed of the map columns of a schema; a column needed as a whole has no entry. -/
def tableFor (n : Needs) (s : Schema) : KeyTable :=
  s.zipIdx.filterMap fun (f, i) =>
    if f.type ≠ .map || n.whole.contains f.uid then none
    else (n.keys.lookup f.uid).map fun keys => (i, keys)

end Needs

namespace Plan

/-- What the listed uses of columns need; none if a column is not known. -/
def needsOfUses (owner : NodeId) : List ColumnUse → Needs → Edit (Option Needs)
  | [], n => return some n
  | .whole input i :: rest, n => do
    match ← columnUid owner input i with
    | none => return none
    | some uid => needsOfUses owner rest (n.needWhole [uid])
  | .key input i key :: rest, n => do
    match ← columnUid owner input i with
    | none => return none
    | some uid => needsOfUses owner rest (n.needKeys uid [key])

/-- Rows that leave the plan or are compared are needed as a whole. -/
def needsOfInputs (n : Needs) : List (Option Schema) → Option Needs
  | [] => some n
  | none :: _ => none
  | some s :: rest => needsOfInputs (n.needWhole (Schema.allUids s)) rest

/-- What an operator needs by what it does, its formulas apart. -/
def needsOfOperation (id : NodeId) (n : Needs) : Edit (Option Needs) := do
  match ← ofResult ((← get).typeOf id) with
  | .store | .distinct => return needsOfInputs n (← inputSchemas id)
  | .union =>
    match ← schema id with
    | none => return none
    | some s => return some (s.foldl Needs.throughUnion n)
  | _ => return some n

/-- What the listed operators need, from the last one on. -/
def needsOf : List NodeId → Needs → Edit (Option Needs)
  | [], n => return some n
  | id :: rest, n => do
    match ← needsOfOperation id n with
    | none => return none
    | some n =>
      let op ← ofResult ((← get).operator id)
      match ← needsOfUses id (op.operation.formulas.flatMap Formula.columnUses) n with
      | none => return none
      | some n => needsOf rest n

/-- The keys needed of the map columns of the listed loads, as far as there are any. -/
def keyTables (n : Needs) : List NodeId → Edit (List (NodeId × KeyTable))
  | [] => return []
  | id :: rest => do
    if (← ofResult ((← get).typeOf id)) ≠ .load then keyTables n rest
    else
      match ← schema id with
      | none => keyTables n rest
      | some s =>
        let table := n.tableFor s
        let others ← keyTables n rest
        return if table.isEmpty then others else (id, table) :: others

/-- The keys needed of the map columns of each load; none if an unknown schema forbids to tell. -/
def analyzeMapKeys : Edit (Option (List (NodeId × KeyTable))) := do
  let order ← ofResult (Graph.orError (← get).graph.reverseTopologicalOrder)
  match ← needsOf order {} with
  | none => return none
  | some n => return some (← keyTables n order.reverse)

/-- Notes on a load which keys are needed. -/
def annotate (id : NodeId) (table : KeyTable) : Edit Unit :=
  update id fun op =>
    match op.operation with
    | .load l => { op with operation := .load { l with requiredKeys := some table } }
    | _ => op

/-- Notes on all loads which keys are needed, and returns on how many. -/
def pruneMapKeys : Edit Nat := do
  match ← analyzeMapKeys with
  | none => return 0
  | some tables =>
    tables.forM fun (id, table) => annotate id table
    return tables.length

end Plan

end Dataflow

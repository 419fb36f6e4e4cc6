import Dataflow.Rewrite.Pattern

/-!
# Rules for filters

Three rules that move filters towards the loads: `splitFilter` makes a chain of filters from a
conjunction, `filterAboveForEach` moves a filter in front of a `ForEach`, and `mergeFilter` makes
one filter of two adjacent ones.
-/

namespace Dataflow.Rule

/-- The predicate of an operator that has to be a filter. -/
def filterPredicate (plan : Plan) (id : NodeId) : Result Formula := do
  let op ← plan.operator id
  match op.operation.predicate? with
  | some f => return f
  | none => throw (.invariant (.notAFilter op.describe))

/-- Gives a filter another predicate. -/
def setPredicate (id : NodeId) (f : Formula) : Plan.Edit Unit := do
  Plan.update id fun op => op
  let op ← Plan.ofResult ((← get).operator id)
  match op.operation with
  | .filter _ => Plan.update id fun op => { op with operation := .filter f }
  | _ => throw (.invariant (.notAFilter op.describe))

/-! ## Splitting conjunctions -/

/-- Moves the outputs of `x` to the same slots of `y`. -/
def moveOutputs (x y : NodeId) : Nat → List NodeId → Plan.Edit Unit
  | _, [] => pure ()
  | slot, s :: rest => do
    let (_, j) ← Plan.disconnect x s
    Plan.connectAt y slot s j
    moveOutputs x y (slot + 1) rest

/-- A filter by a conjunction becomes a filter by its first part followed by an unnamed filter by
the second, which takes over all outputs. -/
def splitFilter : Rule where
  name := "SplitFilter"
  description := "Split a conjunctive filter into chained filters"
  pattern := Pattern.chain [.filter]
  check m := do
    let id ← Plan.ofResult m.anchor
    return (← Plan.ofResult (filterPredicate (← get) id)).isConjunction
  transform m := do
    let upper ← Plan.ofResult m.anchor
    let predicate ← Plan.ofResult (filterPredicate (← get) upper)
    match ← Plan.ofResult predicate.splitConjunction with
    | none => throw (.invariant .notAConjunction)
    | some (left, right) =>
      setPredicate upper left
      let lower ← Plan.insert { operation := .filter right }
      let outputs := (← get).successors upper
      moveOutputs upper lower 0 outputs
      Plan.connect upper lower
      return .ofList (upper :: lower :: outputs)

/-! ## Moving filters up -/

/-- The first of the filters one after the other from `current` on that reads only available
columns. Each filter passed has to have a single output. The plan bounds how many there can be. -/
def firstEligible (available : List Uid) : Nat → NodeId → Plan.Edit (Option NodeId)
  | 0, _ => return none
  | steps + 1, current => do
    if (← Plan.ofResult ((← get).typeOf current)) ≠ .filter then return none
    let predicate ← Plan.ofResult (filterPredicate (← get) current)
    let eligible := match ← Plan.formulaUids current predicate with
      | some uids => uids.all available.contains
      | none => false
    if eligible then return some current
    match (← get).successors current with
    | [next] => firstEligible available steps next
    | _ => return none

/-- The input of a `ForEach` and the filter behind it that can be moved in front of it. -/
def eligibleFilter (forEach : NodeId) : Plan.Edit (Option (NodeId × NodeId)) := do
  let plan ← get
  match plan.predecessors forEach, plan.successors forEach with
  | [input], [first] =>
    match ← Plan.schema input with
    | none => return none
    | some schema => return (← firstEligible schema.uids plan.size first).map fun f => (input, f)
  | _, _ => return none

/-- The place that a column behind a `ForEach` has in front of it. -/
def placeAbove (input output : Schema) (column : Nat) : Result Nat :=
  match output[column]? with
  | none => .error (.invariant (.columnNotProduced column))
  | some f =>
    match input.indexOfUid? f.uid with
    | some i => .ok i
    | none => .error (.invariant (.uidNotConsumed f.uid))

/-- A schema that has to be known. -/
def knownSchema (id : NodeId) (fault : InvariantFault) : Plan.Edit Schema := do
  match ← Plan.schema id with
  | some s => return s
  | none => throw (.invariant fault)

/-- A filter behind a `ForEach` that reads only columns of its input moves in front of it. -/
def filterAboveForEach : Rule where
  name := "FilterAboveForeach"
  description :=
    "Push a filter above a ForEach when its input exposes every column the filter reads"
  pattern := Pattern.chain [.forEach, .filter]
  check m := do return (← eligibleFilter (← Plan.ofResult (m.get 0))).isSome
  transform m := do
    let forEach ← Plan.ofResult (m.get 0)
    match ← eligibleFilter forEach with
    | none => throw (.invariant .noEligibleFilter)
    | some (input, filter) =>
      let inputSchema ← knownSchema input .inputSchemaVanished
      let outputSchema ← knownSchema forEach .outputSchemaUnknown
      let predicate ← Plan.ofResult (filterPredicate (← get) filter)
      match Formula.remapColumns (fun _ i => placeAbove inputSchema outputSchema i) predicate with
      | .error e _ => throw e
      | .ok _ predicate =>
        let above := (← get).predecessors filter
        let below := (← get).successors filter
        Plan.spliceOut filter
        setPredicate filter predicate
        Plan.insertBetween input filter forEach
        return .ofList (input :: filter :: forEach :: (above.take 1 ++ below))

/-! ## Merging filters -/

/-- Two filters one after the other become one by the conjunction of their predicates. It keeps the
name of the second, since that is the one by which its rows are known. -/
def mergeFilter : Rule where
  name := "MergeFilter"
  description := "Coalesce two chained filters into one conjunction"
  pattern := Pattern.chain [.filter, .filter]
  check m := do return ((← get).successors (← Plan.ofResult (m.get 0))).length == 1
  transform m := do
    let upper ← Plan.ofResult (m.get 0)
    let lower ← Plan.ofResult (m.get 1)
    let first ← Plan.ofResult (filterPredicate (← get) upper)
    let second ← Plan.ofResult (filterPredicate (← get) lower)
    let both ← Plan.ofResult (Formula.conjunction first second)
    let outputs := (← get).successors lower
    let removed ← Plan.bypass lower
    setPredicate upper both
    if removed.name.isSome then
      Plan.update upper fun op => { op with name := removed.name }
    return .ofList (upper :: outputs)

/-- The rules by which a plan is optimized when nothing else is asked for: conjunctions are split,
their parts are moved up, and what ends up adjacent is merged. -/
def defaultSets : List RuleSet :=
  [⟨"split", [splitFilter]⟩, ⟨"pushdown", [filterAboveForEach]⟩, ⟨"merge", [mergeFilter]⟩]

end Dataflow.Rule

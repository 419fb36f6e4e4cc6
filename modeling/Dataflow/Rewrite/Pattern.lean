import Dataflow.Plan.Schemas

/-!
# Patterns and rules

A pattern is a graph of operator types with one source, its anchor. It matches at an operator if its
nodes can be mapped to different operators of their types, the anchor to that operator, such that
the edge in output slot `i` of a node leads to the operator in output slot `i`. The map is forced by
the anchor, so that there is at most one.
-/

namespace Dataflow

/-- A graph of operator types to look for. -/
structure Pattern where
  graph : Graph OperatorType := {}
deriving Inhabited

/-- The operators found for the nodes of a pattern, in the order of the nodes. -/
structure Match where
  nodes : List NodeId
deriving DecidableEq, Repr, Inhabited

/-- The operator found for a node. -/
def Match.get (m : Match) (i : Nat) : Result NodeId :=
  match m.nodes[i]? with
  | some id => .ok id
  | none => .error (.pattern (.noSuchNode i))

/-- The operator found for the first node. -/
def Match.anchor (m : Match) : Result NodeId := m.get 0

namespace Pattern

/-- Adds an edge. -/
def connect (p : Pattern) (a b : NodeId) : Result Pattern :=
  match p.graph.connect a b with
  | .ok graph => .ok { graph }
  | .error fault => .error (.pattern (.graph fault))

/-- Connects each node to the one after it. -/
def connectInTurn : List NodeId → Pattern → Result Pattern
  | a :: b :: rest, p => do connectInTurn (b :: rest) (← p.connect a b)
  | _, p => .ok p

/-- Nodes of the given types, each leading to the next. -/
def chain (types : List OperatorType) : Result Pattern :=
  let graph := types.foldl (fun g t => (g.add t).2) Graph.empty
  connectInTurn graph.ids { graph }

/-- The anchor of a pattern that is in order. -/
def root (p : Pattern) : Result NodeId :=
  match p.graph.sources with
  | [] => .error (.pattern (if p.graph.isEmpty then .empty else .noSource))
  | [root] =>
    if p.graph.hasCycle then .error (.pattern .cycle)
    else if (p.graph.descendants root).length ≠ p.graph.size then .error (.pattern .unconnected)
    else .ok root
  | many => .error (.pattern (.manySources many.length))

/-- Maps the stacked pattern nodes to the operators beside them, and what lies behind them slot by
slot; none if two of them do not fit. -/
def bind (p : Pattern) (plan : Plan) (stack : List (NodeId × NodeId)) (m : Graph.Pairing) :
    Option Graph.Pairing :=
  match stack with
  | [] => some m
  | (a, b) :: rest =>
    match _ : m.forward? a, m.backward? b with
    | some b', _ => if b' = b then bind p plan rest m else none
    | none, some _ => none
    | none, none =>
      match _ : p.graph.vertices[a]?, plan.operator? b with
      | some v, some op =>
        if v.content = op.type ∧ v.outs.length ≤ (plan.successors b).length then
          bind p plan (v.outs.zip (plan.successors b) ++ rest) ((a, b) :: m)
        else none
      | _, _ => none
termination_by p.graph.pending Vertex.outs (stack.map Prod.fst) m.lefts
decreasing_by
  · simp only [Graph.pending, List.map_cons, List.length_cons]; omega
  · rename_i hf hv _
    have h1 := Graph.pending_visit Vertex.outs (rest.map Prod.fst) hv
      (Graph.Pairing.not_mem_lefts hf)
    refine Nat.lt_of_le_of_lt ?_ h1
    simp only [Graph.pending, Graph.Pairing.lefts, List.map_cons, List.map_append,
      List.length_append, List.length_map, List.length_zip]
    omega

/-- The match with the anchor at an operator, if there is one. -/
def matchAt (p : Pattern) (plan : Plan) (anchor : NodeId) : Result (Option Match) := do
  let root ← p.root
  return do
    let m ← p.bind plan [(root, anchor)] []
    let nodes ← p.graph.ids.mapM m.forward?
    return ⟨nodes⟩

/-- The matches at the listed operators. -/
def matchesAt (p : Pattern) (plan : Plan) : List NodeId → Result (List Match)
  | [] => .ok []
  | anchor :: rest => do
    match ← p.matchAt plan anchor with
    | some m => return m :: (← p.matchesAt plan rest)
    | none => p.matchesAt plan rest

/-- All matches in topological order of their anchors; with a scope, those anchored in it. -/
def findMatches (p : Pattern) (plan : Plan) (scope : Option (List NodeId)) :
    Result (List Match) := do
  discard p.root
  let order ← Graph.orError plan.graph.topologicalOrder
  p.matchesAt plan (match scope with
    | some ids => order.filter (ids.contains ·)
    | none => order)

end Pattern

/-!
## Rewrite rules

A rule looks for a pattern, checks whether a match is fit for it, and changes the plan there. It
reports the operators it touched, the changed region, in which new matches may have arisen.
-/

/-- Operators that a rule touched, each once. -/
structure Region where
  nodes : List NodeId
deriving DecidableEq, Repr, Inhabited

namespace Region

/-- The region of the listed operators. -/
def ofList (ids : List NodeId) : Region := ⟨Operator.firsts ids⟩

/-- The operators of the region that are still in the plan, each behind its inputs. -/
def withNeighbors (r : Region) (plan : Plan) : List NodeId :=
  Operator.firsts ((r.nodes.filter plan.contains).flatMap fun id => plan.predecessors id ++ [id])

end Region

/-- A way to change plans. -/
structure Rule where
  name : String
  description : String := ""
  pattern : Result Pattern
  /-- Whether the rule is to be applied to a match. It may derive schemas but changes no operator
  and no edge. -/
  check : Match → Plan.Edit Bool := fun _ => pure true
  transform : Match → Plan.Edit Region
deriving Inhabited

/-- Rules that are applied in turn until none of them finds anything. -/
structure RuleSet where
  name : String
  rules : List Rule
deriving Inhabited

end Dataflow

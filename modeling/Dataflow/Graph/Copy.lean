import Dataflow.Graph.Edit
import Dataflow.Graph.Walk

/-!
# Copying graphs

Copies get fresh keys. `absorb` copies what can be reached from a node into another graph, `clone`
copies a whole graph and says which key became which.
-/

namespace Dataflow.Graph

variable {α β : Type}

/-- Which key of a graph stands for which key of its copy. -/
abbrev Renaming := Std.TreeMap NodeId NodeId

/-- Adds the listed contents one after the other and records the new key of each. -/
def addAll (g : Graph α) (items : List (NodeId × α)) : Renaming × Graph α :=
  items.foldl (fun (names, g) (old, a) =>
    let (new, g) := g.add a
    (names.insert old new, g)) ({}, g)

/-- The edges out of the listed nodes, by source and then by output. -/
def edgesFrom (g : Graph α) (ids : List NodeId) : List (NodeId × NodeId) :=
  ids.flatMap fun a => (g.successors a).map fun b => (a, b)

/-- Connects the new keys as the old ones are connected by the listed edges. -/
def connectAll (names : Renaming) : List (NodeId × NodeId) → Edit α Unit
  | [] => pure ()
  | (a, b) :: rest => do
    match names[a]?, names[b]? with
    | some a', some b' => perform (·.connect a' b')
    | _, _ => pure ()
    connectAll names rest

/-- Copies every node that can be reached from `root` in another graph, with the edges among them,
and returns the copy of `root`. -/
def absorb (source : Graph α) (root : NodeId) : Edit α NodeId := do
  let reached := source.descendants root
  if reached.isEmpty then throw (.unknownNode root)
  let (names, g) := (← get).addAll (reached.filterMap fun id => (source.content? id).map (id, ·))
  set g
  connectAll names (source.edgesFrom reached)
  match names[root]? with
  | some root' => pure root'
  | none => throw (.unknownNode root)

/-- The part of a graph that can be reached from `root`, with the new key of `root`. -/
def copyReachable (g : Graph α) (root : NodeId) : Except Fault (NodeId × Graph α) :=
  match absorb g root empty with
  | .ok root' copy => .ok (root', copy)
  | .error e _ => .error e

/-- Gives the copy of a node the inputs of the node, in their order. -/
def copyInputs (names : Renaming) (g copy : Graph α) (id : NodeId) : Graph α :=
  match names[id]? with
  | none => copy
  | some id' =>
    let ins := (g.predecessors id).filterMap (names[·]?)
    { copy with vertices := copy.vertices.modify id' fun v => { v with ins := ins } }

/-- A copy of the whole graph under fresh keys, which count from zero in the order in which the
nodes were added, and the new key of every node. -/
def clone (g : Graph α) : Except Fault (Renaming × Graph α) :=
  let (names, copy) := empty.addAll g.toList
  match connectAll names (g.edgesFrom g.ids) copy with
  | .error e _ => .error e
  | .ok () copy => .ok (names, g.ids.foldl (copyInputs names g) copy)

end Dataflow.Graph

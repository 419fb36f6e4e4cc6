import Dataflow.Graph.Fault

/-!
# Graphs with ordered edges

A graph maps keys to vertices. A vertex holds its content and both of its edge lists; the order of
each list is meaningful, because the place of an edge says which input or output it is. The keys
are also kept in the order in which the nodes were added, so that every listing is reproducible.

The lookups below are the views in which the operations on graphs are described: `content?`,
`successors`, `predecessors` and `ids`.
-/

namespace Dataflow

/-- One node of a graph: its content, and the targets and sources of its edges in slot order. -/
structure Vertex (α : Type) where
  content : α
  outs : List NodeId := []
  ins : List NodeId := []
deriving Inhabited

/-- A directed graph whose edges have places in both of the lists that record them. -/
structure Graph (α : Type) where
  /-- The nodes by key. -/
  vertices : Std.TreeMap NodeId (Vertex α) := {}
  /-- The keys in the order in which their nodes were added. -/
  ids : List NodeId := []
  /-- The key that the next added node gets. -/
  nextKey : UInt64 := 0
deriving Inhabited

namespace Graph

variable {α β : Type}

/-- The graph without nodes. -/
def empty : Graph α := {}

/-- How many nodes there are. -/
def size (g : Graph α) : Nat := g.vertices.size

/-- Whether there are no nodes. -/
def isEmpty (g : Graph α) : Bool := g.vertices.isEmpty

/-- Whether the key belongs to a node. -/
def contains (g : Graph α) (id : NodeId) : Bool := g.vertices.contains id

/-- The content of a node, if the key belongs to one. -/
def content? (g : Graph α) (id : NodeId) : Option α := g.vertices[id]?.map Vertex.content

/-- The content of a node. -/
def content (g : Graph α) (id : NodeId) : Except Fault α :=
  match g.content? id with
  | some a => .ok a
  | none => .error (.unknownNode id)

/-- The targets of a node's edges in output order; none for a key without a node. -/
def successors (g : Graph α) (id : NodeId) : List NodeId :=
  match g.vertices[id]? with
  | some v => v.outs
  | none => []

/-- The sources of a node's edges in input order; none for a key without a node. -/
def predecessors (g : Graph α) (id : NodeId) : List NodeId :=
  match g.vertices[id]? with
  | some v => v.ins
  | none => []

/-- Whether an edge leads from `a` to `b`. -/
def isConnected (g : Graph α) (a b : NodeId) : Bool := (g.successors a).contains b

/-- Keys and contents in the order in which the nodes were added. -/
def toList (g : Graph α) : List (NodeId × α) :=
  g.ids.filterMap fun id => (g.content? id).map fun a => (id, a)

/-- The nodes without inputs, in the order in which they were added. -/
def sources (g : Graph α) : List NodeId := g.ids.filter fun id => (g.predecessors id).isEmpty

/-- The nodes without outputs, in the order in which they were added. -/
def sinks (g : Graph α) : List NodeId := g.ids.filter fun id => (g.successors id).isEmpty

/-- Replaces the content of a node by a function of it; a key without a node is left alone. -/
def update (g : Graph α) (id : NodeId) (f : α → α) : Graph α :=
  { g with vertices := g.vertices.modify id fun v => { v with content := f v.content } }

/-- Checks that every edge leads to a node and is recorded at both of its ends. -/
def checkConsistency (g : Graph α) : Except Fault Unit := do
  for (a, v) in g.vertices.toList do
    for b in v.outs do
      unless g.contains b do throw (.strayTarget a b)
      unless (g.predecessors b).contains a do throw (.missingInput a b)
  for (b, v) in g.vertices.toList do
    for a in v.ins do
      unless (g.successors a).contains b do throw (.missingOutput a b)

end Graph

end Dataflow

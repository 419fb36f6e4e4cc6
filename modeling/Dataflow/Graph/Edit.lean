import Dataflow.Graph.Basic

/-!
# Editing graphs

The elementary edits (`add`, `insert`, `remove`, `connectAt`, `disconnect`) either succeed or leave
the graph alone. The composed ones (`insertBetween`, `spliceOut`, `bypass`) run several of them in
turn and are `Edit`s: state passes that keep, next to a fault, the graph in which it was met.
-/

namespace Dataflow.Graph

variable {α β : Type}

/-- A pass over a graph that may stop with a fault; the graph reached so far is kept. -/
abbrev Edit (α β : Type) := EStateM Fault (Graph α) β

/-- An elementary step as a pass: a refused step leaves the graph alone. -/
def step (f : Graph α → Except Fault (β × Graph α)) : Edit α β := fun g =>
  match f g with
  | .ok (b, g') => .ok b g'
  | .error e => .error e g

/-- An elementary step without result as a pass. -/
def perform (f : Graph α → Except Fault (Graph α)) : Edit α Unit :=
  step fun g => (f g).map fun g' => ((), g')

@[deprecated perform (since := "2025-11-20")]
abbrev step_ (f : Graph α → Except Fault (Graph α)) : Edit α Unit := perform f

/-! ## Elementary edits -/

/-- Puts a content under a key and lists the key last. A node that already has the key keeps its
edges. -/
def place (g : Graph α) (id : NodeId) (a : α) : Graph α :=
  { g with
    vertices := g.vertices.insert id
      { content := a, outs := g.successors id, ins := g.predecessors id }
    ids := g.ids ++ [id] }

/-- Adds a node without edges under the next key. The count of keys wraps at `2 ^ 64`. -/
def add (g : Graph α) (a : α) : NodeId × Graph α :=
  let id : NodeId := ⟨g.nextKey⟩
  (id, { g.place id a with nextKey := g.nextKey + 1 })

/-- Adds a node without edges under a chosen key; later keys are taken above it. -/
def insert (g : Graph α) (id : NodeId) (a : α) : Except Fault (Graph α) :=
  if g.contains id then .error (.duplicateNode id)
  else .ok { g.place id a with nextKey := max g.nextKey (id.val + 1) }

/-- Removes a node that has no edges left, and returns its content. -/
def remove (g : Graph α) (id : NodeId) : Except Fault (α × Graph α) :=
  match g.vertices[id]? with
  | none => .error (.unknownNode id)
  | some v =>
    let edges := v.ins.length + v.outs.length
    if edges > 0 then .error (.stillConnected id edges)
    else .ok (v.content,
      { g with vertices := g.vertices.erase id, ids := g.ids.filter (· != id) })

/-- Records an edge at both ends, at the given places. -/
def link (g : Graph α) (a : NodeId) (i : Nat) (b : NodeId) (j : Nat) : Graph α :=
  { g with
    vertices := (g.vertices.modify a fun v => { v with outs := v.outs.insertIdx i b }).modify b
      fun v => { v with ins := v.ins.insertIdx j a } }

/-- Drops the record of an edge at both ends, at the given places. -/
def unlink (g : Graph α) (a : NodeId) (i : Nat) (b : NodeId) (j : Nat) : Graph α :=
  { g with
    vertices := (g.vertices.modify a fun v => { v with outs := v.outs.eraseIdx i }).modify b
      fun v => { v with ins := v.ins.eraseIdx j } }

/-- Inserts an edge from `a` to `b` as output `i` of `a` and input `j` of `b`. -/
def connectAt (g : Graph α) (a : NodeId) (i : Nat) (b : NodeId) (j : Nat) :
    Except Fault (Graph α) :=
  if !g.contains a then .error (.unknownNode a)
  else if !g.contains b then .error (.unknownNode b)
  else if a = b then .error (.selfEdge a)
  else if g.isConnected a b then .error (.alreadyConnected a b)
  else if i > (g.successors a).length then .error (.outputSlot i a (g.successors a).length)
  else if j > (g.predecessors b).length then .error (.inputSlot j b (g.predecessors b).length)
  else .ok (g.link a i b j)

/-- Adds an edge from `a` to `b` after the other outputs of `a` and inputs of `b`. -/
def connect (g : Graph α) (a b : NodeId) : Except Fault (Graph α) :=
  g.connectAt a (g.successors a).length b (g.predecessors b).length

/-- Removes the edge from `a` to `b` and returns the two places that it had. -/
def disconnect (g : Graph α) (a b : NodeId) : Except Fault ((Nat × Nat) × Graph α) :=
  match (g.successors a).idxOf? b, (g.predecessors b).idxOf? a with
  | some i, some j => .ok ((i, j), g.unlink a i b j)
  | _, _ => .error (.notConnected a b)

/-! ## Composed edits -/

/-- Places a node on the edge from `a` to `b`, whose slots the two new edges take over. -/
def insertBetween (a x b : NodeId) : Edit α Unit := do
  let (i, j) ← step (·.disconnect a b)
  perform fun g => g.connectAt a i x (g.predecessors x).length
  perform fun g => g.connectAt x (g.successors x).length b j

/-- Moves the outputs of `x` to its only input `p`, from slot `i` of `p` onwards; without an input
the outputs are only cut off. -/
def handOver (x : NodeId) : Option NodeId → Nat → List NodeId → Edit α Unit
  | _, _, [] => pure ()
  | p?, i, s :: rest => do
    let (_, j) ← step (·.disconnect x s)
    match p? with
    | some p => perform (·.connectAt p i s j)
    | none => pure ()
    handOver x p? (i + 1) rest

/-- Takes a node with at most one input out of all edges: its input leads to each of its outputs in
the slots that the node had. The node stays in the graph. -/
def spliceOut (x : NodeId) : Edit α Unit := do
  let g ← get
  unless g.contains x do throw (.unknownNode x)
  match g.predecessors x with
  | [] => handOver x none 0 (g.successors x)
  | [p] => do
    let (i, _) ← step (·.disconnect p x)
    handOver x (some p) i (g.successors x)
  | ps => throw (.manyInputs x ps.length)

/-- Takes a node with at most one input out of all edges and removes it; returns its content. -/
def bypass (x : NodeId) : Edit α α := do
  spliceOut x
  step (·.remove x)

end Dataflow.Graph

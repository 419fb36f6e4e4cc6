import Dataflow.Graph.Basic

/-!
# Reachability

`descendants` and `ancestors` list what can be reached from a node along its outputs or against its
inputs, each node once, in the order of a depth-first walk that takes the first edge first. The walk
keeps a stack of keys still to look at, and so does the search for one key (`reaches`). Both end
because the stack and the edges of the nodes not yet visited together (`Graph.pending`) get fewer in
every step.
-/

namespace Dataflow.Graph

variable {α : Type}

/-- The number of edges in direction `next` of the listed nodes that were not visited yet. -/
def unvisitedEdges (next : Vertex α → List NodeId) (visited : List NodeId) :
    List (NodeId × Vertex α) → Nat
  | [] => 0
  | (id, v) :: rest =>
    (if id ∈ visited then 0 else (next v).length) + unvisitedEdges next visited rest

/-- How many steps a walk with this stack and these visited nodes has left at most. -/
def pending (g : Graph α) (next : Vertex α → List NodeId) (stack visited : List NodeId) : Nat :=
  stack.length + unvisitedEdges next visited g.vertices.toList

theorem unvisitedEdges_cons_le (next : Vertex α → List NodeId) (visited : List NodeId) (id : NodeId)
    (l : List (NodeId × Vertex α)) :
    unvisitedEdges next (id :: visited) l ≤ unvisitedEdges next visited l := by
  induction l with
  | nil => exact Nat.le_refl _
  | cons p rest ih =>
    obtain ⟨k, v⟩ := p
    simp only [unvisitedEdges, List.mem_cons]
    by_cases hk : k ∈ visited
    · simpa [hk] using ih
    · by_cases he : k = id
      · simp only [he, true_or, ↓reduceIte]; omega
      · simp only [he, hk, or_self, ↓reduceIte]; omega

/-- Visiting a node takes its edges out of the count. -/
theorem unvisitedEdges_cons (next : Vertex α → List NodeId) {visited : List NodeId} {id : NodeId}
    {v : Vertex α} {l : List (NodeId × Vertex α)} (hmem : (id, v) ∈ l) (hnew : id ∉ visited) :
    (next v).length + unvisitedEdges next (id :: visited) l ≤ unvisitedEdges next visited l := by
  induction l with
  | nil => simp at hmem
  | cons p rest ih =>
    obtain ⟨k, w⟩ := p
    rcases List.mem_cons.mp hmem with h | h
    · obtain ⟨rfl, rfl⟩ := Prod.mk.inj h
      have := unvisitedEdges_cons_le next visited id rest
      simp only [unvisitedEdges, List.mem_cons, true_or, hnew, ↓reduceIte]
      omega
    · have := ih h
      simp only [unvisitedEdges, List.mem_cons]
      by_cases hk : k ∈ visited
      · simp only [hk, or_true, ↓reduceIte]; omega
      · by_cases he : k = id
        · simp only [he, true_or, ↓reduceIte]; omega
        · simp only [he, hk, or_self, ↓reduceIte]; omega

theorem mem_toList_of_getElem? {g : Graph α} {id : NodeId} {v : Vertex α}
    (h : g.vertices[id]? = some v) : (id, v) ∈ g.vertices.toList :=
  Std.TreeMap.mem_toList_iff_getElem?_eq_some.mpr h

theorem pending_visit {g : Graph α} (next : Vertex α → List NodeId) {id : NodeId} {v : Vertex α}
    (stack : List NodeId) {visited : List NodeId} (h : g.vertices[id]? = some v)
    (hnew : id ∉ visited) :
    g.pending next (next v ++ stack) (id :: visited) < g.pending next (id :: stack) visited := by
  have := unvisitedEdges_cons next (mem_toList_of_getElem? h) hnew
  simp only [pending, List.length_append, List.length_cons]
  omega

/-- Visits the stacked nodes and what lies behind them. The visited nodes are listed last first. -/
def walk (g : Graph α) (next : Vertex α → List NodeId) (stack visited : List NodeId) :
    List NodeId :=
  match stack with
  | [] => visited
  | id :: rest =>
    match _ : g.vertices[id]? with
    | none => walk g next rest visited
    | some v =>
      if _ : id ∈ visited then walk g next rest visited
      else walk g next (next v ++ rest) (id :: visited)
termination_by g.pending next stack visited
decreasing_by
  · simp only [pending, List.length_cons]; omega
  · simp only [pending, List.length_cons]; omega
  · exact pending_visit next rest (by assumption) (by assumption)

/-- The nodes that can be reached from `start` along outputs, `start` first. -/
def descendants (g : Graph α) (start : NodeId) : List NodeId :=
  (g.walk Vertex.outs [start] []).reverse

/-- The nodes from which `start` can be reached, `start` first. -/
def ancestors (g : Graph α) (start : NodeId) : List NodeId :=
  (g.walk Vertex.ins [start] []).reverse

theorem pending_search {g : Graph α} {id : NodeId} (stack : List NodeId) {visited : List NodeId}
    (hnew : id ∉ visited) :
    g.pending Vertex.outs ((g.successors id).reverse ++ stack) (id :: visited) <
      g.pending Vertex.outs (id :: stack) visited := by
  have hlength : ∀ outs : List NodeId, (outs.reverse ++ stack).length = (outs ++ stack).length := by
    simp
  unfold pending
  rw [hlength]
  cases hv : g.vertices[id]? with
  | none =>
    have := unvisitedEdges_cons_le Vertex.outs visited id g.vertices.toList
    simp only [successors, hv, List.nil_append, List.length_cons]
    omega
  | some v =>
    simp only [successors, hv]
    exact pending_visit Vertex.outs stack hv hnew

/-- Whether the target is among the stacked keys or behind them. The last edge of a node is followed
first, and the search ends as soon as it comes to the target. -/
def search (g : Graph α) (target : NodeId) (stack visited : List NodeId) : Bool :=
  match stack with
  | [] => false
  | id :: rest =>
    if id = target then true
    else if _ : id ∈ visited then search g target rest visited
    else search g target ((g.successors id).reverse ++ rest) (id :: visited)
termination_by g.pending Vertex.outs stack visited
decreasing_by
  · simp only [pending, List.length_cons]; omega
  · exact pending_search rest (by assumption)

/-- Whether a path leads from `a` to `b`. Every key reaches itself. -/
def reaches (g : Graph α) (a b : NodeId) : Bool := g.search b [a] []

end Dataflow.Graph

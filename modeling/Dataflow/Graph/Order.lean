import Dataflow.Graph.Basic

/-!
# Topological order

Nodes leave a queue one at a time. A node enters it when the last of its inputs has left; the nodes
without inputs are in it from the start, in the order in which they were added. Nodes on a cycle
never enter, and so their absence shows the cycle.
-/

namespace Dataflow.Graph

variable {α : Type}

/-- How many inputs of each node have not left the queue; a node with none left has no entry. -/
abbrev Waiting := Std.TreeMap NodeId Nat

/-- The count at the start: the number of inputs of every node that has some. -/
def waiting (g : Graph α) : Waiting :=
  g.vertices.foldl (fun w id v => if v.ins.isEmpty then w else w.insert id v.ins.length) {}

/-- Counts one input of `id` as gone. True if it was the last one. -/
def Waiting.release (w : Waiting) (id : NodeId) : Bool × Waiting :=
  match w[id]? with
  | some (n + 2) => (false, w.insert id (n + 1))
  | some _ => (true, w.erase id)
  | none => (false, w)

/-- Counts one input as gone for each listed node; returns those that wait no longer. -/
def Waiting.releaseAll (w : Waiting) : List NodeId → List NodeId × Waiting
  | [] => ([], w)
  | id :: rest =>
    let (freed, w) := w.release id
    let (more, w) := releaseAll w rest
    (if freed then id :: more else more, w)

theorem Waiting.size_release (w : Waiting) (id : NodeId) :
    (w.release id).1.toNat + (w.release id).2.size = w.size := by
  unfold release
  split
  · rename_i n h
    have hm : id ∈ w := Std.TreeMap.mem_iff_isSome_getElem?.mpr (by simp [h])
    simp [Std.TreeMap.size_insert, hm]
  · rename_i n _ h
    have hm : id ∈ w := Std.TreeMap.mem_iff_isSome_getElem?.mpr (by simp [h])
    have hpos : 0 < w.size := by
      rcases Nat.eq_zero_or_pos w.size with h0 | h0
      · have : w.isEmpty = true := by rw [Std.TreeMap.isEmpty_eq_size_eq_zero]; simp [h0]
        exact absurd hm (Std.TreeMap.not_mem_of_isEmpty this)
      · exact h0
    simp only [Std.TreeMap.size_erase, Std.TreeMap.contains_iff_mem, hm, ↓reduceIte,
      Bool.toNat_true]
    omega
  · simp

theorem Waiting.size_releaseAll (w : Waiting) (ids : List NodeId) :
    (w.releaseAll ids).1.length + (w.releaseAll ids).2.size = w.size := by
  induction ids generalizing w with
  | nil => simp [releaseAll]
  | cons id rest ih =>
    have h1 := w.size_release id
    have h2 := ih (w.release id).2
    simp only [releaseAll]
    cases hf : (w.release id).1 <;> simp [hf] at h1 ⊢ <;> omega

/-- Lets the queue run empty. Every step takes one node out and lets each node that no longer waits
in, so that queue and waiting nodes together get fewer by one. -/
def drain (g : Graph α) (queue : List NodeId) (w : Waiting) : List NodeId :=
  match queue with
  | [] => []
  | id :: rest =>
    id :: drain g (rest ++ (w.releaseAll (g.successors id)).1) (w.releaseAll (g.successors id)).2
termination_by queue.length + w.size
decreasing_by
  have := w.size_releaseAll (g.successors id)
  simp only [List.length_append, List.length_cons]
  omega

/-- The nodes, each after its inputs; among nodes that could come next, the one that has been ready
the longest. -/
def topologicalOrder (g : Graph α) : Except Fault (List NodeId) :=
  let ordered := g.drain g.sources g.waiting
  if ordered.length = g.size then .ok ordered else .error (.cycle ordered.length g.size)

/-- The nodes, each before its inputs. -/
def reverseTopologicalOrder (g : Graph α) : Except Fault (List NodeId) :=
  g.topologicalOrder.map List.reverse

/-- Whether some edges form a cycle. -/
def hasCycle (g : Graph α) : Bool := g.topologicalOrder.toOption.isNone

end Dataflow.Graph

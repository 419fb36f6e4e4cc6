import Dataflow.Id

/-!
# What can go wrong with a graph

Every refusal of a graph operation, by cause. The wording is in `Fault.message`, apart from the
operations.
-/

namespace Dataflow.Graph

/-- Why a graph operation was refused. -/
inductive Fault where
  /-- The key belongs to no node of the graph. -/
  | unknownNode (id : NodeId)
  /-- The key already belongs to a node of the graph. -/
  | duplicateNode (id : NodeId)
  /-- There is no edge between the two nodes. -/
  | notConnected (source target : NodeId)
  /-- A node with edges cannot be removed. -/
  | stillConnected (id : NodeId) (edges : Nat)
  /-- An edge may not lead back to its own source. -/
  | selfEdge (id : NodeId)
  /-- There is at most one edge from one node to another. -/
  | alreadyConnected (source target : NodeId)
  /-- The slot lies beyond the outputs of the source. -/
  | outputSlot (slot : Nat) (id : NodeId) (outputs : Nat)
  /-- The slot lies beyond the inputs of the target. -/
  | inputSlot (slot : Nat) (id : NodeId) (inputs : Nat)
  /-- A node with several inputs cannot be spliced out. -/
  | manyInputs (id : NodeId) (inputs : Nat)
  /-- Only some of the nodes could be put in order. -/
  | cycle (ordered total : Nat)
  /-- An edge leads to a key that belongs to no node. -/
  | strayTarget (source target : NodeId)
  /-- An edge is recorded at its source only. -/
  | missingInput (source target : NodeId)
  /-- An edge is recorded at its target only. -/
  | missingOutput (source target : NodeId)
  /-- Any other refusal, given by its text. -/
  | other (text : String)
deriving DecidableEq, Repr, Inhabited

/-- What is wrong with the state of the graph, for the faults that concern it as a whole. -/
def Fault.detail : Fault → String
  | .unknownNode id => s!"{id} is not a member of this graph"
  | .duplicateNode id => s!"{id} is already a member of this graph"
  | .notConnected a b => s!"{a} is not connected to {b}"
  | .stillConnected id n => s!"cannot remove {id}: it still has {n} incident edge(s)"
  | .selfEdge id => s!"self edge on {id}"
  | .alreadyConnected a b => s!"{a} is already connected to {b}"
  | .outputSlot slot id n => s!"output slot {slot} out of range for {id} ({n} outputs)"
  | .inputSlot slot id n => s!"input slot {slot} out of range for {id} ({n} inputs)"
  | .manyInputs id n => s!"cannot splice out {id}: it has {n} inputs"
  | .cycle n total => s!"graph contains a cycle ({n} of {total} nodes ordered)"
  | .strayTarget a b => s!"edge {a} -> {b} targets a non-member"
  | .missingInput a b => s!"edge {a} -> {b} missing from predecessor list"
  | .missingOutput a b => s!"edge {a} -> {b} missing from successor list"
  | .other text => text

/-- The full text of a fault. Questions of membership and connection speak for themselves; all
others are announced as a bad state of the graph. -/
def Fault.message : Fault → String
  | .unknownNode id => (Fault.unknownNode id).detail
  | .duplicateNode id => (Fault.duplicateNode id).detail
  | .notConnected a b => (Fault.notConnected a b).detail
  | fault => s!"Invalid graph state: {fault.detail}"

end Dataflow.Graph

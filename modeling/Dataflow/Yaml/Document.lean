import Dataflow.Yaml.Node

/-!
# Documents

A document is a node with the nodes in it that have numbers. References are followed while the
document is read, and only where something is read; how often is limited, so that a small document
does not stand for a huge one.
-/

namespace Dataflow.Yaml

namespace Node

mutual

/-- The nodes in a node that have numbers, in the order in which they begin. -/
def anchors : Node → List (Nat × Node)
  | .scalar _ _ _ => []
  | .sequence _ items => itemAnchors items
  | .mapping _ entries => entryAnchors entries
  | .anchored n node => (n, node) :: anchors node
  | .reference _ => []
termination_by structural x => x

def itemAnchors : List Node → List (Nat × Node)
  | [] => []
  | item :: rest => anchors item ++ itemAnchors rest
termination_by structural x => x

def entryAnchors : List (Node × Node) → List (Nat × Node)
  | [] => []
  | (k, v) :: rest => anchors k ++ anchors v ++ entryAnchors rest
termination_by structural x => x

end

mutual

/-- The size of a node: scalars and references count once, collections for their start and end. -/
def size : Node → Nat
  | .scalar _ _ _ => 1
  | .sequence _ items => 2 + itemsSize items
  | .mapping _ entries => 2 + entriesSize entries
  | .anchored _ node => size node
  | .reference _ => 1
termination_by structural x => x

def itemsSize : List Node → Nat
  | [] => 0
  | item :: rest => size item + itemsSize rest
termination_by structural x => x

def entriesSize : List (Node × Node) → Nat
  | [] => 0
  | (k, v) :: rest => size k + size v + entriesSize rest
termination_by structural x => x

end

end Node

/-- A document. -/
structure Document where
  root : Node
  /-- The nodes with numbers, the last one first. -/
  anchors : List (Nat × Node)
deriving Inhabited

/-- Reads parts of a document. The state is how many references may still be followed. -/
abbrev Reading := StateT Nat Outcome

namespace Document

def ofNode (root : Node) : Document := ⟨root, root.anchors.reverse⟩

/-- The only document of a text; none if there is no document. -/
def ofText? (text : String) : Outcome (Option Document) := do
  return (← Node.ofTokens? (← Token.ofText text)).map ofNode

/-- How many references may be followed for each part of a document. -/
def maxRepetition : Nat := 100

/-- What a reading of the whole document gives. -/
def read {β : Type} (d : Document) (reading : Document → Node → Reading β) : Outcome β := do
  return (← (reading d d.root).run (d.root.size * maxRepetition)).1

/-- The node that a node stands for, which is neither numbered nor a reference. The last node with a
number counts. -/
def follow (d : Document) : Node → Reading Node
  | .anchored _ node => return node
  | .reference n => do
    match ← get, d.anchors.lookup n with
    | left + 1, some node =>
      set left
      return node
    | _, _ => throw .repetition
  | node => return node

/-- The text of a scalar, whatever its tag and however it is written. -/
def textOf (d : Document) (node : Node) : Reading String := do
  match ← d.follow node with
  | .scalar _ text _ => return text
  | _ => throw (.wrongType "a collection" "a string")

end Document

end Dataflow.Yaml

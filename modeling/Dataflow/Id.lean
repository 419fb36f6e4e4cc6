import Std.Data.TreeMap

/-!
# Identities

Two kinds of identity, both 64-bit words that never mix: a `NodeId` is the key of a node inside
one graph, and a `Uid` is the identity of a column, which stays the same when the column is renamed
or an operator is moved. A `UidSupply` hands out column identities in order from a seed.
-/

namespace Dataflow

/-- The key of a node inside one graph. -/
structure NodeId where
  val : UInt64
deriving DecidableEq, Repr, Inhabited

namespace NodeId

/-- Keys are ordered by their numbers. -/
def order : NodeId → NodeId → Ordering := compareOn NodeId.val

instance : Ord NodeId := ⟨order⟩

instance : Std.TransOrd NodeId := inferInstanceAs (Std.TransCmp (compareOn NodeId.val))

instance : Std.LawfulEqOrd NodeId where
  eq_of_compare {a b} h := by
    cases a; cases b
    simp only [NodeId.mk.injEq]
    exact Std.LawfulEqOrd.eq_of_compare (α := UInt64) h

/-- The text of a key, for instance `NodeId(3)`. -/
def text (id : NodeId) : String := s!"NodeId({id.val.toNat})"

instance : ToString NodeId := ⟨text⟩

end NodeId

/-- The identity of a column. -/
structure Uid where
  val : UInt64
deriving DecidableEq, Repr, Inhabited

namespace Uid

/-- Identities are ordered by their numbers. -/
def order : Uid → Uid → Ordering := compareOn Uid.val

instance : Ord Uid := ⟨order⟩

instance : Std.TransOrd Uid := inferInstanceAs (Std.TransCmp (compareOn Uid.val))

instance : Std.LawfulEqOrd Uid where
  eq_of_compare {a b} h := by
    cases a; cases b
    simp only [Uid.mk.injEq]
    exact Std.LawfulEqOrd.eq_of_compare (α := UInt64) h

/-- The text of a column identity, for instance `Uid(9)`. -/
def text (uid : Uid) : String := s!"Uid({uid.val.toNat})"

instance : ToString Uid := ⟨text⟩

end Uid

/-- A source of fresh column identities. -/
structure UidSupply where
  /-- The number that the next fresh identity gets. -/
  next : UInt64 := 1
deriving DecidableEq, Repr, Inhabited

namespace UidSupply

/-- A supply whose first identity has the given number. -/
def startingAt (seed : UInt64) : UidSupply := ⟨seed⟩

/-- The identity that the next call of `take` hands out. -/
def peek (s : UidSupply) : Uid := ⟨s.next⟩

/-- A fresh identity, and the supply that is left; numbers count modulo `2 ^ 64`. -/
def take (s : UidSupply) : Uid × UidSupply := (s.peek, ⟨s.next + 1⟩)

end UidSupply

end Dataflow

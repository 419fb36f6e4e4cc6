import Dataflow.Proofs.Graph.Order
import Mathlib.Data.Set.Card
import Mathlib.Logic.Relation

/-!
# Order and cycles

A well-formed graph has an order exactly if no path leads from a node back to it. What is left when
the queue has run empty are then nodes on cycles and what lies behind them; without cycles, a node
has more nodes before it than any of its inputs has (`acyclic_iff`).

The queue keeps count of the nodes that still wait. Beside it stands a table with a count for every
node, from which one is taken off for each edge out of a node that leaves the queue (`countDown?`).
Nothing is ever taken off a count of zero, and not more nodes leave than there are
(`Draining.countDown?`).
-/

namespace Dataflow.Graph

variable {α : Type} {g : Graph α} {w : Waiting} {x id a b : NodeId} {done queue ids : List NodeId}

/-! ## Cycles -/

/-- A path of one edge or more leads from `a` to `b`. -/
def Precedes (g : Graph α) : NodeId → NodeId → Prop :=
  Relation.TransGen fun x y => y ∈ g.successors x

/-- Some path leads back to where it starts. -/
def Cyclic (g : Graph α) : Prop := ∃ a, g.Precedes a a

theorem Precedes.contains (h : g.Precedes a b) : g.contains a = true := by
  induction h with
  | single hb => exact contains_of_mem_successors hb
  | tail _ _ ih => exact ih

theorem Precedes.rank_lt {rank : NodeId → Nat} (hrank : ∀ a b, b ∈ g.successors a → rank a < rank b)
    (h : g.Precedes a b) : rank a < rank b := by
  induction h with
  | single hb => exact hrank _ _ hb
  | tail _ hc ih => exact Nat.lt_trans ih (hrank _ _ hc)

/-- Only nodes lead anywhere, so that there are finitely many before any node. -/
theorem finite_before (h : g.WellFormed) (b : NodeId) : {a | g.Precedes a b}.Finite := by
  refine g.ids.finite_toSet.subset ?_
  intro a ha
  exact (h.mem_ids a).mpr ha.contains

/-- Without cycles the number of nodes before a node is a rank: what is before the source of an edge
is before its target, and so is the source, which is not before itself. -/
theorem acyclic_iff (h : g.WellFormed) : g.Acyclic ↔ ¬g.Cyclic := by
  constructor
  · rintro ⟨rank, hrank⟩ ⟨a, ha⟩
    exact Nat.lt_irrefl _ (ha.rank_lt hrank)
  · intro hno
    refine ⟨fun b => {a | g.Precedes a b}.ncard, fun a b hb => ?_⟩
    apply Set.ncard_lt_ncard _ (finite_before h b)
    have hsub : {c | g.Precedes c a} ⊆ {c | g.Precedes c b} :=
      fun c hc => Relation.TransGen.tail hc hb
    have hself : g.Precedes a b := Relation.TransGen.single hb
    exact (Set.ssubset_iff_of_subset hsub).mpr ⟨a, hself, fun ha => hno ⟨a, ha⟩⟩

/-! ## The table of counts -/

/-- How many inputs of each node have not left the queue, also where none is left. -/
abbrev Degrees := Std.TreeMap NodeId Nat

/-- The table at the start. -/
def degrees (g : Graph α) : Degrees :=
  g.ids.foldl (fun d id => d.insert id (g.predecessors id).length) {}

namespace Degrees

/-- Takes one off the count of a node, if there is a count, and tells whether none is left. Fails
where there is nothing to take off. -/
def decrement? (d : Degrees) (id : NodeId) : Option (Bool × Degrees) :=
  match d[id]? with
  | none => some (false, d)
  | some 0 => none
  | some (n + 1) => some (n == 0, d.insert id n)

/-- Takes one off the count of each listed node; returns those that have none left. -/
def decrementAll? (d : Degrees) : List NodeId → Option (List NodeId × Degrees)
  | [] => some ([], d)
  | id :: rest => do
    let (free, d) ← d.decrement? id
    let (more, d) ← decrementAll? d rest
    return (if free then id :: more else more, d)

end Degrees

/-- Lets the queue run empty with the table as its count, in at most `n` steps. Fails where one is
taken off a count of zero, and when the queue is not empty after `n` steps. -/
def countDown? (g : Graph α) : Nat → List NodeId → Degrees → Option (List NodeId)
  | _, [], _ => some []
  | 0, _ :: _, _ => none
  | n + 1, id :: rest, d => do
    let (free, d) ← d.decrementAll? (g.successors id)
    return id :: (← countDown? g n (rest ++ free) d)

/-- The table tells what the count of the waiting nodes tells; a node that does not wait has the
count zero. -/
def Degrees.Tells (g : Graph α) (d : Degrees) (w : Waiting) : Prop :=
  ∀ x : NodeId, d[x]? = if g.contains x then some ((w[x]?).getD 0) else none

theorem getElem?_foldl_insert {f : NodeId → Nat} : ∀ {ids : List NodeId} {d : Degrees},
    (ids.foldl (fun d id => d.insert id (f id)) d)[x]? = if x ∈ ids then some (f x) else d[x]?
  | [], d => by simp
  | id :: ids, d => by
    rw [List.foldl_cons, getElem?_foldl_insert, getElem?_insert]
    by_cases hx : x ∈ ids
    · simp [hx]
    · by_cases hid : x = id
      · simp [hid]
      · simp [hx, hid]

namespace Degrees

variable {d : Degrees}

theorem tells_start (h : g.WellFormed) : Tells g g.degrees g.waiting := by
  intro x
  unfold degrees
  rw [getElem?_foldl_insert, getElem?_waiting]
  by_cases hx : g.contains x = true
  · rw [if_pos ((h.mem_ids x).mpr hx), if_pos hx]
    by_cases hpre : g.predecessors x = []
    · simp [hpre]
    · simp [hpre]
  · rw [if_neg fun hm => hx ((h.mem_ids x).mp hm), if_neg hx]
    simp

/-- Counting down an input of a node that waits. -/
theorem Tells.decrement? {n : Nat} (ht : Tells g d w) (hx : g.contains x = true)
    (hw : w[x]? = some (n + 1)) :
    ∃ d', d.decrement? x = some ((w.release x).1, d') ∧ Tells g d' (w.release x).2 := by
  have hd : d[x]? = some (n + 1) := by rw [ht x, if_pos hx, hw]; rfl
  have hfree : (w.release x).1 = (n == 0) := by
    rw [Bool.eq_iff_iff, Waiting.release_iff, hw]
    simp
  refine ⟨d.insert x n, ?_, fun y => ?_⟩
  · unfold Degrees.decrement?
    rw [hd, hfree]
  · rw [getElem?_insert, Waiting.getElem?_release]
    by_cases hy : y = x
    · subst hy
      rw [if_pos rfl, if_pos rfl, if_pos hx, hw]
      cases n with
      | zero => rfl
      | succ n => rfl
    · rw [if_neg hy, if_neg hy]
      exact ht y

/-- Counting down an input of every listed node, each of which waits. -/
theorem Tells.decrementAll? : ∀ {ids : List NodeId} {d : Degrees} {w : Waiting}, Tells g d w →
    ids.Nodup → (∀ x ∈ ids, g.contains x = true ∧ ∃ n, w[x]? = some (n + 1)) →
    ∃ d', d.decrementAll? ids = some ((w.releaseAll ids).1, d') ∧ Tells g d' (w.releaseAll ids).2
  | [], d, w, ht, _, _ => ⟨d, rfl, ht⟩
  | x :: ids, d, w, ht, hn, hwaits => by
    obtain ⟨hx, hn⟩ := List.nodup_cons.mp hn
    obtain ⟨hc, n, hw⟩ := hwaits x (by simp)
    obtain ⟨d₁, hrun₁, ht₁⟩ := ht.decrement? hc hw
    obtain ⟨d₂, hrun₂, ht₂⟩ := ht₁.decrementAll? hn fun y hy => by
      -- the other nodes are not touched by the first step
      obtain ⟨hcy, m, hm⟩ := hwaits y (List.mem_cons_of_mem x hy)
      refine ⟨hcy, m, ?_⟩
      rw [Waiting.getElem?_release, if_neg (by rintro rfl; exact hx hy), hm]
    refine ⟨d₂, ?_, ht₂⟩
    unfold Degrees.decrementAll?
    rw [hrun₁]
    show (do
      let (more, d) ← d₁.decrementAll? ids
      return (if (w.release x).1 then x :: more else more, d)) = _
    rw [hrun₂]
    rfl

end Degrees

/-- There are no more nodes in the queue and before it than there are nodes. -/
theorem Draining.length_le (h : g.WellFormed) (hd : Draining g done queue w) :
    (done ++ queue).length ≤ g.size := by
  rw [h.size_eq]
  refine (List.subperm_of_subset hd.nodup fun x hx => ?_).length_le
  exact (h.mem_ids x).mpr (hd.listed x hx).1

/-- The table never fails, and the same nodes leave the queue in the same order. The induction is
along the queue; every output of the node that leaves waits for that node, and so its count is not
zero. -/
theorem Draining.countDown? {d : Degrees} {n : Nat} (h : g.WellFormed)
    (hd : Draining g done queue w) (ht : d.Tells g w) (hn : g.size ≤ done.length + n) :
    g.countDown? n queue d = some (g.drain queue w) := by
  induction queue, w using drain.induct (g := g) generalizing done d n with
  | case1 w =>
    rw [Graph.drain]
    unfold Graph.countDown?
    rfl
  | case2 w x rest ih =>
    have hlen := hd.length_le h
    rw [List.length_append, List.length_cons] at hlen
    obtain ⟨n, rfl⟩ : ∃ m, n = m + 1 := ⟨n - 1, by omega⟩
    have hwaits : ∀ y ∈ g.successors x, g.contains y = true ∧ ∃ n, w[y]? = some (n + 1) := by
      intro y hy
      have hx : x ∉ done := by
        intro hx
        exact (List.nodup_append.mp hd.nodup).2.2 x hx x (by simp) rfl
      have hnot : y ∉ done ++ x :: rest := by
        intro hm
        exact hx ((hd.listed y hm).2.2 x ((h.edge x y).mp hy))
      obtain ⟨hw, hpos⟩ := hd.waits y (h.target hy) hnot
      exact ⟨h.target hy, g.missing done y - 1, by rw [hw]; congr 1; omega⟩
    obtain ⟨d', hrun, ht'⟩ := ht.decrementAll? (h.outs_nodup x) hwaits
    have hrest := ih (hd.step h) ht' (n := n)
      (by rw [List.length_append, List.length_singleton]; omega)
    unfold Graph.countDown?
    rw [hrun, Graph.drain]
    show (do return x :: (← g.countDown? n _ d')) = _
    rw [hrest]
    rfl

/-! ## What the order is -/

/-- There is an order exactly if there is no cycle. It lists every node once, with the source of
each edge before its target; the other order is its reverse. With a count for every node as the
table of the loop, none is ever taken off a count of zero, and the loop ends. -/
theorem topologicalOrder_iff_not_cyclic (h : g.WellFormed) :
    ((∃ ids, g.topologicalOrder = .ok ids) ↔ ¬g.Cyclic) ∧
    (∀ ids, g.topologicalOrder = .ok ids → ids.Nodup ∧ (∀ id, id ∈ ids ↔ g.contains id = true) ∧
      (∀ a b, b ∈ g.successors a → ids.idxOf a < ids.idxOf b) ∧
      g.reverseTopologicalOrder = .ok ids.reverse) ∧
    ∃ ids, g.countDown? g.size g.sources g.degrees = some ids ∧
      g.topologicalOrder =
        if ids.length = g.size then .ok ids else .error (.cycle ids.length g.size) := by
  refine ⟨(exists_topologicalOrder_iff h).trans (acyclic_iff h), fun ids ho => ?_, ?_⟩
  · obtain ⟨hnodup, hmem, hord⟩ := topologicalOrder_spec h ho
    refine ⟨hnodup, hmem, fun a b hb => ?_, ?_⟩
    · exact hord.idxOf_lt ((hmem b).mpr (h.target hb)) ((h.edge a b).mp hb)
    · unfold reverseTopologicalOrder
      rw [ho]
      rfl
  · refine ⟨g.drain g.sources g.waiting, ?_, rfl⟩
    exact (Draining.start h).countDown? h (Degrees.tells_start h) (by simp)

/-- Two ways lead from the first node to the last; if the graph is closed, one leads back. -/
def diamond (closed : Bool) : Graph String :=
  { vertices := (({} : Std.TreeMap NodeId (Vertex String)).insert ⟨0⟩
      ⟨"a", [⟨1⟩, ⟨2⟩], if closed then [⟨3⟩] else []⟩)
      |>.insert ⟨1⟩ ⟨"b", [⟨3⟩], [⟨0⟩]⟩ |>.insert ⟨2⟩ ⟨"c", [⟨3⟩], [⟨0⟩]⟩
      |>.insert ⟨3⟩ ⟨"d", if closed then [⟨0⟩] else [], [⟨1⟩, ⟨2⟩]⟩
    ids := [⟨0⟩, ⟨1⟩, ⟨2⟩, ⟨3⟩]
    nextKey := 4 }

theorem diamond_order : (diamond false).WellFormed ∧ (diamond true).WellFormed ∧
    (diamond false).reverseTopologicalOrder = .ok [⟨3⟩, ⟨2⟩, ⟨1⟩, ⟨0⟩] ∧
    ¬(diamond false).Cyclic ∧ (diamond true).Cyclic := by
  have hopen : (diamond false).WellFormed := by decide +kernel
  have hclosed : (diamond true).WellFormed := by decide +kernel
  have horder : (diamond false).topologicalOrder = .ok [⟨0⟩, ⟨1⟩, ⟨2⟩, ⟨3⟩] := by decide +kernel
  have hnone : ¬∃ ids, (diamond true).topologicalOrder = .ok ids := by
    rintro ⟨ids, hids⟩
    have hfail : (diamond true).topologicalOrder = .error (.cycle 0 4) := by decide +kernel
    rw [hfail] at hids
    cases hids
  obtain ⟨hfree, hspec, -⟩ := topologicalOrder_iff_not_cyclic hopen
  refine ⟨hopen, hclosed, (hspec _ horder).2.2.2, hfree.mp ⟨_, horder⟩, ?_⟩
  by_contra hno
  exact hnone ((topologicalOrder_iff_not_cyclic hclosed).1.mpr hno)

end Dataflow.Graph

import Dataflow.Graph.Order
import Dataflow.Proofs.Graph.WellFormed
import Mathlib.Data.List.Perm.Subperm
import Mathlib.Data.Set.Function

/-!
# Topological order of well-formed graphs

`topologicalOrder` succeeds exactly on graphs without cycles (`exists_topologicalOrder_iff`), and
what it returns lists every node once and after its inputs (`topologicalOrder_spec`). That a graph
has no cycle is said by a rank that grows along edges.

The state of the queue is described by `Draining`: a node that left the queue or is in it has only
inputs that left, and any other node waits for as many inputs as have not left.
-/

namespace Dataflow.Graph

variable {α : Type} {g : Graph α} {w : Waiting} {x id : NodeId} {done queue ids : List NodeId}

/-- There is a rank that grows along edges. -/
def Acyclic (g : Graph α) : Prop :=
  ∃ rank : NodeId → Nat, ∀ a b, b ∈ g.successors a → rank a < rank b

/-- Each listed node stands behind all of its inputs. -/
def Ordered (g : Graph α) (ids : List NodeId) : Prop :=
  ∀ before id behind, ids = before ++ id :: behind → ∀ q ∈ g.predecessors id, q ∈ before

theorem Ordered.concat (h : g.Ordered ids) (hx : ∀ q ∈ g.predecessors x, q ∈ ids) :
    g.Ordered (ids ++ [x]) := by
  intro before id behind heq q hq
  rcases List.eq_nil_or_concat behind with rfl | ⟨behind', y, rfl⟩
  · obtain ⟨rfl, hid⟩ := List.append_inj' heq rfl
    obtain rfl : x = id := by simpa using hid
    exact hx q hq
  · rw [List.concat_eq_append, ← List.cons_append, ← List.append_assoc] at heq
    obtain ⟨rfl, -⟩ := List.append_inj' heq rfl
    exact h before id behind' rfl q hq

/-! ## Counting inputs down -/

/-- The count after one input is gone. -/
def countDown : Option Nat → Option Nat
  | some (n + 2) => some (n + 1)
  | _ => none

theorem Waiting.getElem?_release :
    (w.release id).2[x]? = if x = id then countDown w[id]? else w[x]? := by
  unfold release
  split
  · rename_i n h
    rw [h, getElem?_insert]
    rfl
  · rename_i n hn h
    rw [h, getElem?_erase]
    by_cases hx : x = id
    · cases n with
      | zero => simp [hx, countDown]
      | succ n => cases n with
        | zero => simp [hx, countDown]
        | succ n => exact absurd rfl (hn n)
    · simp [hx]
  · rename_i h
    by_cases hx : x = id
    · subst hx; simp [h, countDown]
    · simp [hx]

theorem Waiting.release_iff (id : NodeId) :
    (w.release id).1 = true ↔ ∃ n, w[id]? = some n ∧ n ≤ 1 := by
  unfold release
  split
  · rename_i n h
    simp [h]
  · rename_i n hn h
    simp only [h, Option.some.injEq, true_iff]
    refine ⟨n, rfl, ?_⟩
    by_contra hlt
    obtain ⟨k, rfl⟩ : ∃ k, n = k + 2 := ⟨n - 2, by omega⟩
    exact hn k rfl
  · rename_i h
    simp [h]

theorem Waiting.releaseAll_sublist : ∀ (ids : List NodeId) {w : Waiting},
    (w.releaseAll ids).1.Sublist ids
  | [], _ => List.Sublist.slnil
  | id :: rest, w => by
    have ih := releaseAll_sublist rest (w := (w.release id).2)
    simp only [releaseAll]
    split
    · exact ih.cons_cons id
    · exact ih.cons id

theorem Waiting.getElem?_releaseAll : ∀ {ids : List NodeId} {w : Waiting}, ids.Nodup →
    (w.releaseAll ids).2[x]? = if x ∈ ids then countDown w[x]? else w[x]?
  | [], _, _ => by simp [releaseAll]
  | id :: rest, w, h => by
    obtain ⟨hid, hrest⟩ := List.nodup_cons.mp h
    simp only [releaseAll, getElem?_releaseAll hrest, getElem?_release, List.mem_cons]
    by_cases hx : x = id
    · subst hx; simp [hid]
    · simp [hx]

theorem Waiting.mem_releaseAll (x : NodeId) : ∀ {ids : List NodeId} {w : Waiting}, ids.Nodup →
    (x ∈ (w.releaseAll ids).1 ↔ x ∈ ids ∧ ∃ n, w[x]? = some n ∧ n ≤ 1)
  | [], _, _ => by simp [releaseAll]
  | id :: rest, w, h => by
    obtain ⟨hid, hrest⟩ := List.nodup_cons.mp h
    have ih := mem_releaseAll x (w := (w.release id).2) hrest
    have hfreed := release_iff (w := w) id
    simp only [releaseAll]
    by_cases hx : x = id
    · subst hx
      rw [getElem?_release, if_pos rfl] at ih
      by_cases hf : (w.release x).1 = true
      · simpa [hf] using hfreed.mp hf
      · have hnot : x ∉ ((w.release x).2.releaseAll rest).1 := fun hm => hid (ih.mp hm).1
        simp only [hf, Bool.false_eq_true, if_false, hnot, false_iff]
        exact fun hm => hf (hfreed.mpr hm.2)
    · rw [getElem?_release, if_neg hx] at ih
      split <;> simp [ih, hx]

theorem getElem?_foldl_waiting : ∀ {l : List (NodeId × Vertex α)} {w : Waiting},
    (l.map Prod.fst).Nodup → (∀ p ∈ l, w[p.1]? = none) →
    (l.foldl (fun w p => if p.2.ins.isEmpty then w else w.insert p.1 p.2.ins.length) w)[x]? =
      match l.lookup x with
      | some v => if v.ins.isEmpty then none else some v.ins.length
      | none => w[x]?
  | [], _, _, _ => by simp
  | (k, v) :: l, w, hl, hw => by
    simp only [List.map_cons, List.nodup_cons] at hl
    have hnone : ∀ p ∈ l, p.1 ≠ k := fun p hp he =>
      hl.1 (he ▸ List.mem_map_of_mem (f := Prod.fst) hp)
    rw [List.foldl_cons, getElem?_foldl_waiting hl.2 fun p hp => ?_]
    · by_cases hx : x = k
      · subst hx
        have hlook : l.lookup x = none := by
          rw [List.lookup_eq_none_iff]
          intro p hp
          simpa using fun e => hnone p hp e.symm
        have hwx : w[x]? = none := hw (x, v) (by simp)
        simp only [hlook, List.lookup_cons, beq_self_eq_true]
        cases v.ins with
        | nil => simpa using hwx
        | cons q qs => simp
      · have hk : (x == k) = false := by simpa using hx
        simp only [List.lookup_cons, hk]
        cases l.lookup x with
        | some u => rfl
        | none => by_cases hv : v.ins.isEmpty = true <;> simp [hv, getElem?_insert, hx]
    · have := hnone p hp
      have hwp : w[p.1]? = none := hw p (by simp [hp])
      by_cases hv : v.ins.isEmpty = true <;> simp [hv, getElem?_insert, this, hwp]

/-- At the start every node waits for all of its inputs. -/
theorem getElem?_waiting : g.waiting[x]? =
    if g.predecessors x = [] then none else some (g.predecessors x).length := by
  have hnodup : (g.vertices.toList.map Prod.fst).Nodup := by
    rw [Std.TreeMap.map_fst_toList_eq_keys]
    exact Std.TreeMap.nodup_keys
  unfold waiting
  rw [Std.TreeMap.foldl_eq_foldl_toList, getElem?_foldl_waiting hnodup fun p _ => by simp]
  cases hv : g.vertices[x]? with
  | none =>
    have hlook : g.vertices.toList.lookup x = none := by
      rw [List.lookup_eq_none_iff]
      rintro ⟨k, v⟩ hp
      have := Std.TreeMap.mem_toList_iff_getElem?_eq_some.mp hp
      simp only [bne_iff_ne, ne_eq]
      rintro rfl
      simp [hv] at this
    simp [hlook, predecessors, hv]
  | some v =>
    have hlook : g.vertices.toList.lookup x = some v := by
      have hmem := Std.TreeMap.mem_toList_iff_getElem?_eq_some.mpr hv
      obtain ⟨v', hv'⟩ : ∃ v', g.vertices.toList.lookup x = some v' := by
        by_contra hno
        have hnone : g.vertices.toList.lookup x = none := by
          cases h : g.vertices.toList.lookup x with
          | none => rfl
          | some v' => exact absurd ⟨v', h⟩ hno
        rw [List.lookup_eq_none_iff] at hnone
        simpa using hnone _ hmem
      obtain ⟨l₁, l₂, hsplit, -⟩ := List.lookup_eq_some_iff.mp hv'
      have : (x, v') ∈ g.vertices.toList := by rw [hsplit]; simp
      have := Std.TreeMap.mem_toList_iff_getElem?_eq_some.mp this
      rw [hv', ← this, hv]
    simp only [hlook, predecessors, hv, List.isEmpty_iff]

/-! ## The queue -/

/-- How many inputs of a node are not among the listed nodes. -/
def missing (g : Graph α) (done : List NodeId) (id : NodeId) : Nat :=
  ((g.predecessors id).filter fun q => decide (q ∉ done)).length

theorem missing_eq_zero : g.missing done id = 0 ↔ ∀ q ∈ g.predecessors id, q ∈ done := by
  simp [missing, List.length_eq_zero_iff, List.filter_eq_nil_iff]

/-- The state of the queue: `done` left it, and the rest of the nodes waits. -/
structure Draining (g : Graph α) (done queue : List NodeId) (w : Waiting) : Prop where
  nodup : (done ++ queue).Nodup
  ordered : g.Ordered done
  listed : ∀ id ∈ done ++ queue,
    g.contains id = true ∧ w[id]? = none ∧ ∀ q ∈ g.predecessors id, q ∈ done
  waits : ∀ id, g.contains id = true → id ∉ done ++ queue →
    w[id]? = some (g.missing done id) ∧ 0 < g.missing done id

/-- One more node that left is one input less for each of its outputs. -/
theorem missing_concat (h : g.WellFormed) (hx : x ∉ done) (id : NodeId) :
    g.missing (done ++ [x]) id + (if id ∈ g.successors x then 1 else 0) = g.missing done id := by
  have hsplit : (g.predecessors id).filter (fun q => decide (q ∉ done ++ [x])) =
      ((g.predecessors id).filter fun q => decide (q ∉ done)).erase x := by
    rw [((h.ins_nodup id).filter _).erase_eq_filter, List.filter_filter]
    refine List.filter_congr fun q _ => ?_
    by_cases hq : q = x <;> simp [hq]
  unfold missing
  rw [hsplit]
  by_cases hmem : id ∈ g.successors x
  · have hq : x ∈ (g.predecessors id).filter fun q => decide (q ∉ done) :=
      List.mem_filter.mpr ⟨(h.edge x id).mp hmem, by simpa using hx⟩
    have := List.length_pos_of_mem hq
    rw [List.length_erase_of_mem hq, if_pos hmem]
    omega
  · have hq : x ∉ (g.predecessors id).filter fun q => decide (q ∉ done) := fun hm =>
      hmem ((h.edge x id).mpr (List.mem_of_mem_filter hm))
    rw [List.erase_of_not_mem hq, if_neg hmem]
    omega

theorem Draining.start (h : g.WellFormed) : Draining g [] g.sources g.waiting where
  nodup := by simpa [sources] using h.ids_nodup.filter _
  ordered := fun before id behind heq => absurd heq (by simp)
  listed id hid := by
    obtain ⟨hmem, hpre⟩ : id ∈ g.ids ∧ g.predecessors id = [] := by simpa [sources] using hid
    exact ⟨h.contains_of_mem hmem, by simp [getElem?_waiting, hpre], by simp [hpre]⟩
  waits id hid hnot := by
    have hpre : g.predecessors id ≠ [] := fun hpre =>
      hnot (by simpa [sources, hpre] using (h.mem_ids id).mpr hid)
    have hlen : g.missing [] id = (g.predecessors id).length := by simp [missing]
    rw [getElem?_waiting, if_neg hpre, hlen]
    exact ⟨rfl, List.length_pos_iff.mpr hpre⟩

/-- The first node of the queue leaves it. -/
theorem Draining.step (h : g.WellFormed) (hd : Draining g done (x :: queue) w) :
    Draining g (done ++ [x]) (queue ++ (w.releaseAll (g.successors x)).1)
      (w.releaseAll (g.successors x)).2 := by
  have hnodup := h.outs_nodup x
  have hx : x ∉ done := by
    have := (List.nodup_append.mp hd.nodup).2.2
    exact fun hm => this x hm x (by simp) rfl
  obtain ⟨-, -, hxpre⟩ := hd.listed x (by simp)
  -- an output of `x` has not been listed yet, since `x` itself was still to leave
  have hwaits : ∀ b ∈ g.successors x, b ∉ done ++ x :: queue := fun b hb hm =>
    hx ((hd.listed b hm).2.2 x ((h.edge x b).mp hb))
  have hfreed : ∀ b, b ∈ (w.releaseAll (g.successors x)).1 ↔
      b ∈ g.successors x ∧ g.missing (done ++ [x]) b = 0 := fun b => by
    rw [Waiting.mem_releaseAll b hnodup]
    refine and_congr_right fun hb => ?_
    obtain ⟨hw, hpos⟩ := hd.waits b (h.target hb) (hwaits b hb)
    have hm := missing_concat h hx b
    rw [if_pos hb] at hm
    simp only [hw, Option.some.injEq, exists_eq_left']
    omega
  have hlist : done ++ [x] ++ (queue ++ (w.releaseAll (g.successors x)).1) =
      (done ++ x :: queue) ++ (w.releaseAll (g.successors x)).1 := by simp
  refine ⟨?_, hd.ordered.concat hxpre, fun id hid => ?_, fun id hid hnot => ?_⟩
  · rw [hlist]
    refine List.nodup_append.mpr ⟨hd.nodup, hnodup.sublist (Waiting.releaseAll_sublist _), ?_⟩
    rintro a ha b hb rfl
    exact hwaits a ((hfreed a).mp hb).1 ha
  · rw [hlist, List.mem_append] at hid
    rcases hid with hid | hid
    · obtain ⟨hc, hw, hpre⟩ := hd.listed id hid
      refine ⟨hc, ?_, fun q hq => List.mem_append_left _ (hpre q hq)⟩
      rw [Waiting.getElem?_releaseAll hnodup, hw]
      simp [countDown]
    · obtain ⟨hs, hzero⟩ := (hfreed id).mp hid
      obtain ⟨hw, hpos⟩ := hd.waits id (h.target hs) (hwaits id hs)
      have hm := missing_concat h hx id
      rw [if_pos hs] at hm
      refine ⟨h.target hs, ?_, missing_eq_zero.mp hzero⟩
      rw [Waiting.getElem?_releaseAll hnodup, if_pos hs, hw,
        show g.missing done id = 1 by omega]
      rfl
  · rw [hlist, List.mem_append, not_or] at hnot
    obtain ⟨hw, hpos⟩ := hd.waits id hid hnot.1
    have hm := missing_concat h hx id
    rw [Waiting.getElem?_releaseAll hnodup, hw]
    by_cases hs : id ∈ g.successors x
    · have hnz : g.missing (done ++ [x]) id ≠ 0 := fun hz => hnot.2 ((hfreed id).mpr ⟨hs, hz⟩)
      rw [if_pos hs] at hm ⊢
      obtain ⟨n, hn⟩ : ∃ n, g.missing (done ++ [x]) id = n + 1 :=
        ⟨g.missing (done ++ [x]) id - 1, by omega⟩
      rw [← hm, hn]
      exact ⟨rfl, by omega⟩
    · rw [if_neg hs] at hm ⊢
      rw [← hm]
      exact ⟨rfl, by omega⟩

/-- When the queue is empty, the nodes that did not leave it still wait. -/
theorem Draining.drain (h : g.WellFormed) (hd : Draining g done queue w) :
    ∃ w', Draining g (done ++ g.drain queue w) [] w' := by
  induction queue, w using drain.induct (g := g) generalizing done with
  | case1 w => exact ⟨w, by simpa [Graph.drain] using hd⟩
  | case2 w x rest ih =>
    obtain ⟨w', hw'⟩ := ih (hd.step h)
    exact ⟨w', by simpa [Graph.drain] using hw'⟩

/-! ## The order -/

theorem topologicalOrder_eq_ok : g.topologicalOrder = .ok ids ↔
    ids = g.drain g.sources g.waiting ∧ ids.length = g.size := by
  unfold topologicalOrder
  by_cases hlen : (g.drain g.sources g.waiting).length = g.size
  · simp only [hlen, if_true, Except.ok.injEq]
    exact ⟨fun heq => ⟨heq.symm, heq ▸ hlen⟩, fun heq => heq.1.symm⟩
  · simp only [hlen, if_false, reduceCtorEq, false_iff, not_and]
    rintro rfl
    exact hlen

/-- The order lists every node once and after its inputs. -/
theorem topologicalOrder_spec (h : g.WellFormed) (ho : g.topologicalOrder = .ok ids) :
    ids.Nodup ∧ (∀ id, id ∈ ids ↔ g.contains id = true) ∧ g.Ordered ids := by
  obtain ⟨rfl, hlen⟩ := topologicalOrder_eq_ok.mp ho
  obtain ⟨w', hd⟩ := (Draining.start h).drain h
  have hnodup : (g.drain g.sources g.waiting).Nodup := by simpa using hd.nodup
  simp only [List.nil_append] at hd
  have hsub : ∀ id ∈ g.drain g.sources g.waiting, id ∈ g.ids := fun id hid =>
    (h.mem_ids id).mpr (hd.listed id (by simpa using hid)).1
  have hperm : (g.drain g.sources g.waiting).Perm g.ids :=
    (List.subperm_of_subset hnodup hsub).perm_of_length_le (Nat.le_of_eq
      (h.size_eq.symm.trans hlen.symm))
  exact ⟨hnodup, fun id => by rw [hperm.mem_iff, h.mem_ids], hd.ordered⟩

/-- A graph with a rank has an order: a node that still waited would wait for one of lower rank. -/
theorem exists_topologicalOrder (h : g.WellFormed) (hac : g.Acyclic) :
    ∃ ids, g.topologicalOrder = .ok ids := by
  obtain ⟨rank, hrank⟩ := hac
  obtain ⟨w', hd⟩ := (Draining.start h).drain h
  have hnodup : (g.drain g.sources g.waiting).Nodup := by simpa using hd.nodup
  simp only [List.nil_append] at hd
  have hall : ∀ n id, rank id < n → g.contains id = true →
      id ∈ g.drain g.sources g.waiting := by
    intro n
    induction n with
    | zero => intro id hlt; exact absurd hlt (Nat.not_lt_zero _)
    | succ n ih =>
      intro id hlt hid
      by_contra hnot
      obtain ⟨-, hpos⟩ := hd.waits id hid (by simpa using hnot)
      refine absurd (missing_eq_zero.mpr fun q hq => ?_) (Nat.ne_of_gt hpos)
      have := hrank q id ((h.edge q id).mpr hq)
      exact ih q (by omega) (h.source hq)
  refine ⟨_, topologicalOrder_eq_ok.mpr ⟨rfl, ?_⟩⟩
  rw [h.size_eq]
  refine ((List.perm_ext_iff_of_nodup hnodup h.ids_nodup).mpr fun id => ?_).length_eq
  rw [h.mem_ids]
  exact ⟨fun hid => (hd.listed id (by simpa using hid)).1,
    fun hid => hall _ id (Nat.lt_succ_self _) hid⟩

/-- The place in the order is a rank below the number of nodes. -/
theorem Ordered.idxOf_lt (ho : g.Ordered ids) {a b : NodeId} (hb : b ∈ ids)
    (ha : a ∈ g.predecessors b) : ids.idxOf a < ids.idxOf b := by
  obtain ⟨before, behind, rfl, hnot⟩ := List.eq_append_cons_of_mem hb
  have hmem := ho before b behind rfl a ha
  rw [List.idxOf_append_of_mem hmem, List.idxOf_append_of_notMem hnot]
  have := List.idxOf_lt_length_iff.mpr hmem
  simp only [List.idxOf_cons_self]
  omega

theorem exists_topologicalOrder_iff (h : g.WellFormed) :
    (∃ ids, g.topologicalOrder = .ok ids) ↔ g.Acyclic := by
  refine ⟨fun ⟨ids, ho⟩ => ?_, exists_topologicalOrder h⟩
  obtain ⟨-, hmem, hord⟩ := topologicalOrder_spec h ho
  exact ⟨ids.idxOf, fun a b hb =>
    hord.idxOf_lt ((hmem b).mpr (h.target hb)) ((h.edge a b).mp hb)⟩

/-- A graph without cycles has a rank below the number of its nodes. -/
theorem Acyclic.bounded (hac : g.Acyclic) (h : g.WellFormed) : ∃ rank : NodeId → Nat,
    (∀ a b, b ∈ g.successors a → rank a < rank b) ∧
      ∀ a, g.contains a = true → rank a < g.size := by
  obtain ⟨ids, ho⟩ := exists_topologicalOrder h hac
  obtain ⟨-, hmem, hord⟩ := topologicalOrder_spec h ho
  refine ⟨ids.idxOf, fun a b hb =>
    hord.idxOf_lt ((hmem b).mpr (h.target hb)) ((h.edge a b).mp hb), fun a ha => ?_⟩
  rw [← (topologicalOrder_eq_ok.mp ho).2]
  exact List.idxOf_lt_length_iff.mpr ((hmem a).mpr ha)

/-- Induction along the edges: what holds of a node whenever it holds of its outputs holds of
all. -/
theorem Acyclic.outputs_first {P : NodeId → Prop} (hac : g.Acyclic) (h : g.WellFormed)
    (hstep : ∀ x c, g.content? x = some c → (∀ y ∈ g.successors x, P y) → P x) :
    ∀ x, g.contains x = true → P x := by
  obtain ⟨rank, hrank, hbound⟩ := hac.bounded h
  have hall : ∀ n x, g.contains x = true → g.size ≤ n + rank x → P x := by
    intro n
    induction n with
    | zero =>
      intro x hx hle
      have := hbound x hx
      omega
    | succ n ih =>
      intro x hx hle
      obtain ⟨c, hc⟩ := exists_content? hx
      refine hstep x c hc fun y hy => ih y (h.target hy) ?_
      have := hrank x y hy
      omega
  exact fun x hx => hall g.size x hx (Nat.le_add_right _ _)

/-- Induction against the edges: what holds of a node whenever it holds of its inputs holds of
all. -/
theorem Acyclic.inputs_first {P : NodeId → Prop} (hac : g.Acyclic) (h : g.WellFormed)
    (hstep : ∀ x, g.contains x = true → (∀ y ∈ g.predecessors x, P y) → P x) :
    ∀ x, g.contains x = true → P x := by
  obtain ⟨rank, hrank⟩ := hac
  intro x hx
  induction hn : rank x using Nat.strongRecOn generalizing x with
  | _ n ih =>
    refine hstep x hx fun y hy => ih (rank y) ?_ y (h.source hy) rfl
    exact hn ▸ hrank y x ((h.edge y x).mpr hy)

theorem WellFormed.mem_sources (h : g.WellFormed) :
    x ∈ g.sources ↔ g.contains x = true ∧ g.predecessors x = [] := by
  unfold sources
  rw [List.mem_filter, h.mem_ids, List.isEmpty_iff]

/-- What holds of the only source and is passed on along edges holds of every node, since each that
has no input is the source. -/
theorem Acyclic.from_source {P : NodeId → Prop} (hac : g.Acyclic) (h : g.WellFormed) {r : NodeId}
    (hsource : g.sources = [r]) (hr : P r)
    (hstep : ∀ x, g.contains x = true → P x → ∀ y ∈ g.successors x, P y) :
    ∀ x, g.contains x = true → P x := by
  refine hac.inputs_first h fun x hx hins => ?_
  cases hpre : g.predecessors x with
  | nil =>
    have hmem := h.mem_sources.mpr ⟨hx, hpre⟩
    rw [hsource, List.mem_singleton] at hmem
    exact hmem ▸ hr
  | cons y ys =>
    have hy : y ∈ g.predecessors x := by simp [hpre]
    exact hstep y (h.source hy) (hins y hy) x ((h.edge y x).mpr hy)

/-! ## Graphs with the same edges -/

section SameEdges

variable {β : Type} {g' : Graph β} {w' : Waiting}

theorem Waiting.release_congr (id : NodeId) (hw : ∀ x : NodeId, w'[x]? = w[x]?) :
    (w'.release id).1 = (w.release id).1 ∧
      ∀ x : NodeId, (w'.release id).2[x]? = (w.release id).2[x]? := by
  refine ⟨Bool.eq_iff_iff.mpr ?_, fun x => ?_⟩
  · rw [release_iff, release_iff, hw]
  · rw [getElem?_release, getElem?_release, hw, hw]

theorem Waiting.releaseAll_congr : ∀ (ids : List NodeId) {w w' : Waiting},
    (∀ x : NodeId, w'[x]? = w[x]?) → (w'.releaseAll ids).1 = (w.releaseAll ids).1 ∧
      ∀ x : NodeId, (w'.releaseAll ids).2[x]? = (w.releaseAll ids).2[x]?
  | [], _, _, hw => ⟨rfl, hw⟩
  | id :: ids, w, w', hw => by
    obtain ⟨hfreed, hw⟩ := release_congr id hw
    obtain ⟨hmore, hw⟩ := releaseAll_congr ids hw
    refine ⟨?_, hw⟩
    change (if (w'.release id).1 then id :: ((w'.release id).2.releaseAll ids).1
      else ((w'.release id).2.releaseAll ids).1) =
        if (w.release id).1 then id :: ((w.release id).2.releaseAll ids).1
        else ((w.release id).2.releaseAll ids).1
    rw [hfreed, hmore]

/-- The order in which nodes leave the queue depends on the edges and the counts alone. -/
theorem drain_congr (hsuc : ∀ x, g'.successors x = g.successors x)
    (hw : ∀ x : NodeId, w'[x]? = w[x]?) : g'.drain queue w' = g.drain queue w := by
  induction queue, w using drain.induct (g := g) generalizing w' with
  | case1 w => rw [Graph.drain, Graph.drain]
  | case2 w id rest ih =>
    obtain ⟨hmore, hw⟩ := Waiting.releaseAll_congr (g.successors id) hw
    rw [Graph.drain, Graph.drain, hsuc, hmore, ih hw]

/-- Graphs with the same edges whose nodes were added in the same order have the same order. -/
theorem drain_sources_congr (hids : g'.ids = g.ids)
    (hsuc : ∀ x, g'.successors x = g.successors x)
    (hpre : ∀ x, g'.predecessors x = g.predecessors x) :
    g'.drain g'.sources g'.waiting = g.drain g.sources g.waiting := by
  have hsources : g'.sources = g.sources := by
    unfold sources
    rw [hids]
    exact List.filter_congr fun x _ => by rw [hpre]
  rw [hsources]
  exact drain_congr hsuc fun x => by rw [getElem?_waiting, getElem?_waiting, hpre]

theorem topologicalOrder_congr (hids : g'.ids = g.ids)
    (hsuc : ∀ x, g'.successors x = g.successors x)
    (hpre : ∀ x, g'.predecessors x = g.predecessors x) {ids' : List NodeId}
    (h : g.topologicalOrder = .ok ids) (h' : g'.topologicalOrder = .ok ids') : ids' = ids := by
  rw [(topologicalOrder_eq_ok.mp h).1, (topologicalOrder_eq_ok.mp h').1]
  exact drain_sources_congr hids hsuc hpre

/-- If their nodes have the same keys, too, then the search for the order ends alike, whatever the
lists of keys and edges hold. -/
theorem topologicalOrder_eq (hids : g'.ids = g.ids)
    (hcontains : ∀ x, g'.contains x = g.contains x)
    (hsuc : ∀ x, g'.successors x = g.successors x)
    (hpre : ∀ x, g'.predecessors x = g.predecessors x) :
    g'.topologicalOrder = g.topologicalOrder := by
  unfold topologicalOrder
  rw [drain_sources_congr hids hsuc hpre, size_congr hcontains]

end SameEdges

/-! ## Renamed nodes -/

section Renamed

variable {β : Type} {g' : Graph β} {w' : Waiting} {φ : NodeId → NodeId}

/-- The counts under new keys are those under the old ones. -/
def SameCounts (g : Graph α) (φ : NodeId → NodeId) (w w' : Waiting) : Prop :=
  ∀ x : NodeId, g.contains x = true → w'[φ x]? = w[x]?

/-- The nodes of a graph, renamed, have the edges that they have in another one. -/
structure Renamed (g : Graph α) (g' : Graph β) (φ : NodeId → NodeId) : Prop where
  inj : Set.InjOn φ {x | g.contains x = true}
  successors : ∀ x, g.contains x = true → g'.successors (φ x) = (g.successors x).map φ
  predecessors : ∀ x, g.contains x = true → g'.predecessors (φ x) = (g.predecessors x).map φ

namespace Renamed

variable (hc : Renamed g g' φ)

include hc

theorem sameCounts_waiting : SameCounts g φ g.waiting g'.waiting := by
  intro x hx
  rw [getElem?_waiting, getElem?_waiting, hc.predecessors x hx, List.length_map]
  simp

theorem sameCounts_release (hw : SameCounts g φ w w') (hid : g.contains id = true) :
    (w'.release (φ id)).1 = (w.release id).1 ∧
      SameCounts g φ (w.release id).2 (w'.release (φ id)).2 := by
  refine ⟨Bool.eq_iff_iff.mpr ?_, fun x hx => ?_⟩
  · rw [Waiting.release_iff, Waiting.release_iff, hw id hid]
  · rw [Waiting.getElem?_release, Waiting.getElem?_release, hw id hid, hw x hx]
    have hiff : φ x = φ id ↔ x = id := ⟨hc.inj hx hid, congrArg φ⟩
    simp only [hiff]

theorem sameCounts_releaseAll : ∀ (ids : List NodeId) {w w' : Waiting}, SameCounts g φ w w' →
    (∀ x ∈ ids, g.contains x = true) →
    (w'.releaseAll (ids.map φ)).1 = (w.releaseAll ids).1.map φ ∧
      SameCounts g φ (w.releaseAll ids).2 (w'.releaseAll (ids.map φ)).2
  | [], _, _, hw, _ => ⟨rfl, hw⟩
  | id :: ids, w, w', hw, hids => by
    obtain ⟨hfreed, hw⟩ := hc.sameCounts_release hw (hids id (by simp))
    obtain ⟨hmore, hw⟩ := sameCounts_releaseAll ids hw
      fun x hx => hids x (List.mem_cons_of_mem id hx)
    refine ⟨?_, hw⟩
    change (if (w'.release (φ id)).1 then φ id :: ((w'.release (φ id)).2.releaseAll (ids.map φ)).1
      else ((w'.release (φ id)).2.releaseAll (ids.map φ)).1) =
        (if (w.release id).1 then id :: ((w.release id).2.releaseAll ids).1
        else ((w.release id).2.releaseAll ids).1).map φ
    rw [hfreed, hmore]
    split <;> rfl

/-- The queue holds the new keys of what the queue of the original holds. -/
theorem drain_eq (hg : g.WellFormed) {queue : List NodeId} (hw : SameCounts g φ w w')
    (hqueue : ∀ x ∈ queue, g.contains x = true) :
    g'.drain (queue.map φ) w' = (g.drain queue w).map φ := by
  induction queue, w using drain.induct (g := g) generalizing w' with
  | case1 w => simp [Graph.drain]
  | case2 w id rest ih =>
    obtain ⟨hmore, hw⟩ := hc.sameCounts_releaseAll (g.successors id) hw
      fun x hx => hg.target hx
    rw [List.map_cons, Graph.drain, Graph.drain, hc.successors id (hqueue id (by simp)), hmore,
      ← List.map_append, ih hw, List.map_cons]
    intro x hx
    rcases List.mem_append.mp hx with hx | hx
    · exact hqueue x (List.mem_cons_of_mem id hx)
    · exact hg.target ((Waiting.releaseAll_sublist _).subset hx)

/-- If the sources were added in the same order, too, the order is the same under the new keys. -/
theorem topologicalOrder_eq (hg : g.WellFormed) (hsources : g'.sources = g.sources.map φ)
    (hsize : g'.size = g.size) :
    g'.topologicalOrder = g.topologicalOrder.map (List.map φ) := by
  have hdrain : g'.drain g'.sources g'.waiting = (g.drain g.sources g.waiting).map φ := by
    rw [hsources]
    exact hc.drain_eq hg hc.sameCounts_waiting
      fun x hx => hg.contains_of_mem (List.mem_of_mem_filter hx)
  unfold topologicalOrder
  simp only [hdrain, List.length_map, hsize]
  split <;> rfl

end Renamed

end Renamed

end Dataflow.Graph

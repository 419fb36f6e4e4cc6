import Dataflow.Proofs.Pass
import Mathlib.Algebra.Ring.Nat
import Mathlib.Data.List.Nodup

/-!
# Well-formed graphs

The edges of a graph are recorded twice and its keys are listed beside the nodes. A graph is
`WellFormed` if these records agree and no edge is repeated or leads back to its own source, which
can be told by looking at every node (`wellFormed_iff`).
-/

namespace Dataflow

theorem NodeId.eq_of_toNat {x y : NodeId} (h : x.val.toNat = y.val.toNat) : x = y := by
  cases x
  cases y
  exact congrArg NodeId.mk (UInt64.toNat_inj.mp h)

theorem NodeId.ne_of_lt {n : Nat} {x y : NodeId} (hy : y.val.toNat = n) (hx : n < x.val.toNat) :
    x ≠ y := by
  rintro rfl
  exact absurd hy.symm (Nat.ne_of_lt hx)

end Dataflow

namespace Dataflow.Graph

variable {α : Type} {g g' : Graph α} {a b x y id : NodeId} {i j : Nat}

/-- The two records of the edges agree, every node is listed once, and edges are simple. -/
structure WellFormed (g : Graph α) : Prop where
  ids_nodup : g.ids.Nodup
  mem_ids : ∀ id, id ∈ g.ids ↔ g.contains id = true
  outs_nodup : ∀ a, (g.successors a).Nodup
  ins_nodup : ∀ b, (g.predecessors b).Nodup
  edge : ∀ a b, b ∈ g.successors a ↔ a ∈ g.predecessors b
  irrefl : ∀ a, a ∉ g.successors a

/-- The keys handed out so far lie below the next one. -/
def KeysBelow (g : Graph α) : Prop := ∀ id ∈ g.ids, id.val.toNat < g.nextKey.toNat

theorem KeysBelow.congr (h : g.KeysBelow) (hids : g'.ids = g.ids)
    (hkey : g'.nextKey = g.nextKey) : g'.KeysBelow := by
  intro id hid
  rw [hids] at hid
  rw [hkey]
  exact h id hid

/-! ## Nodes by key -/

theorem getElem?_modify {m : Std.TreeMap NodeId α} {f : α → α} :
    (m.modify a f)[x]? = if x = a then m[x]?.map f else m[x]? := by
  by_cases h : a = x
  · subst h; simp
  · simp [Std.TreeMap.getElem?_modify, h, Ne.symm h]

theorem getElem?_insert {m : Std.TreeMap NodeId α} {v : α} :
    (m.insert a v)[x]? = if x = a then some v else m[x]? := by
  simp [Std.TreeMap.getElem?_insert, eq_comm (a := a)]

theorem getElem?_erase {m : Std.TreeMap NodeId α} :
    (m.erase a)[x]? = if x = a then none else m[x]? := by
  simp [Std.TreeMap.getElem?_erase, eq_comm (a := a)]

theorem contains_eq : g.contains x = g.vertices[x]?.isSome := by
  simp [contains]

theorem content?_isSome : (g.content? x).isSome = g.contains x := by
  simp [content?, contains_eq]

theorem contains_of_content? {c : α} (h : g.content? x = some c) : g.contains x = true := by
  rw [← content?_isSome, h]; rfl

theorem exists_content? (h : g.contains x = true) : ∃ c, g.content? x = some c := by
  rw [← content?_isSome] at h
  exact Option.isSome_iff_exists.mp h

theorem content_eq_ok {c : α} : g.content x = .ok c ↔ g.content? x = some c := by
  unfold content
  cases g.content? x <;> simp

theorem successors_of_not_contains (h : g.contains x = false) : g.successors x = [] := by
  rw [contains_eq] at h
  unfold successors
  cases hv : g.vertices[x]? with
  | none => rfl
  | some v => simp [hv] at h

theorem predecessors_of_not_contains (h : g.contains x = false) : g.predecessors x = [] := by
  rw [contains_eq] at h
  unfold predecessors
  cases hv : g.vertices[x]? with
  | none => rfl
  | some v => simp [hv] at h

theorem contains_of_mem_successors (h : y ∈ g.successors x) : g.contains x = true := by
  by_contra hx
  rw [successors_of_not_contains (by simpa using hx)] at h
  simp at h

theorem contains_of_mem_predecessors (h : y ∈ g.predecessors x) : g.contains x = true := by
  by_contra hx
  rw [predecessors_of_not_contains (by simpa using hx)] at h
  simp at h

theorem isConnected_iff : g.isConnected a b = true ↔ b ∈ g.successors a := by
  simp [isConnected]

theorem getElem?_vertices {v : Vertex α} : g.vertices[x]? = some v ↔
    g.content? x = some v.content ∧ g.successors x = v.outs ∧ g.predecessors x = v.ins := by
  unfold content? successors predecessors
  cases g.vertices[x]? with
  | none => simp
  | some w => cases v; cases w; simp

theorem mem_toList {c : α} : (x, c) ∈ g.toList ↔ x ∈ g.ids ∧ g.content? x = some c := by
  unfold toList
  rw [List.mem_filterMap]
  constructor
  · rintro ⟨id, hid, h⟩
    obtain ⟨c', hc, heq⟩ := Option.map_eq_some_iff.mp h
    obtain ⟨rfl, rfl⟩ := Prod.mk.inj heq
    exact ⟨hid, hc⟩
  · rintro ⟨hid, hc⟩
    exact ⟨x, hid, by simp [hc]⟩

/-- A loop that only ever goes on or fails ends well if none of its rounds fails. -/
theorem forIn_eq_ok {β ε : Type} {f : β → Unit → Except ε (ForInStep Unit)}
    (hf : ∀ b r, f b () = .ok r → r = .yield ()) : ∀ {l : List β},
      forIn l () f = .ok () ↔ ∀ b ∈ l, f b () = .ok (.yield ())
  | [] => by simp [pure, Except.pure]
  | b :: l => by
    rw [List.forIn_cons, List.forall_mem_cons, ← forIn_eq_ok hf]
    cases hb : f b () with
    | error e => simp [Bind.bind, Except.bind]
    | ok r =>
      obtain rfl := hf b r hb
      simp [Bind.bind, Except.bind]

/-- One loop in another; what the inner one goes through depends on where the outer one is. -/
theorem forIn_forIn_eq_ok {β γ ε : Type} {inner : β → List γ}
    {f : β → γ → Except ε (ForInStep Unit)} (hf : ∀ b c r, f b c = .ok r → r = .yield ())
    {l : List β} : (forIn l () fun b _ => do
      forIn (inner b) () fun c _ => f b c
      return ForInStep.yield ()) = .ok () ↔ ∀ b ∈ l, ∀ c ∈ inner b, f b c = .ok (.yield ()) := by
  rw [forIn_eq_ok fun b r h => ?_]
  · refine forall₂_congr fun b _ => ?_
    rw [Pass.except_bind_unit_eq_ok, forIn_eq_ok (hf b)]
    exact and_iff_left rfl
  · obtain ⟨-, h⟩ := Pass.except_bind_unit_eq_ok.mp h
    exact (Except.ok.inj h).symm

/-- A node is recorded for each key that its graph contains. -/
theorem size_congr {β : Type} {g' : Graph β} (h : ∀ id, g'.contains id = g.contains id) :
    g'.size = g.size := by
  have hperm : g'.vertices.keys.Perm g.vertices.keys := by
    refine (List.perm_ext_iff_of_nodup Std.TreeMap.nodup_keys Std.TreeMap.nodup_keys).mpr
      fun id => ?_
    have hid : id ∈ g'.vertices ↔ id ∈ g.vertices := by
      rw [← Std.TreeMap.contains_iff_mem, ← Std.TreeMap.contains_iff_mem]
      exact Bool.eq_iff_iff.mp (h id)
    rw [Std.TreeMap.mem_keys, Std.TreeMap.mem_keys, hid]
  have hlen := hperm.length_eq
  rw [Std.TreeMap.length_keys, Std.TreeMap.length_keys] at hlen
  exact hlen

/-! ## Edges of well-formed graphs -/

namespace WellFormed

theorem contains_of_mem (h : g.WellFormed) (hx : x ∈ g.ids) : g.contains x = true :=
  (h.mem_ids x).mp hx

theorem target (h : g.WellFormed) (he : b ∈ g.successors a) : g.contains b = true :=
  contains_of_mem_predecessors ((h.edge a b).mp he)

theorem source (h : g.WellFormed) (he : a ∈ g.predecessors b) : g.contains a = true :=
  contains_of_mem_successors ((h.edge a b).mpr he)

theorem ne_of_edge (h : g.WellFormed) (he : b ∈ g.successors a) : a ≠ b := by
  rintro rfl
  exact h.irrefl _ he

theorem mem_toList_iff (h : g.WellFormed) {c : α} :
    (x, c) ∈ g.toList ↔ g.content? x = some c := by
  rw [mem_toList, h.mem_ids]
  exact ⟨And.right, fun hc => ⟨contains_of_content? hc, hc⟩⟩

/-- The keys of the nodes are listed, though in another order. -/
theorem keys_perm (h : g.WellFormed) : g.vertices.keys.Perm g.ids := by
  refine (List.perm_ext_iff_of_nodup Std.TreeMap.nodup_keys h.ids_nodup).mpr fun id => ?_
  rw [h.mem_ids, Std.TreeMap.mem_keys]
  simp [contains]

/-- The number of nodes is the length of the list of keys. -/
theorem size_eq (h : g.WellFormed) : g.size = g.ids.length := by
  rw [← h.keys_perm.length_eq, Std.TreeMap.length_keys]
  rfl

end WellFormed

/-! ## Looking at every node -/

/-- What is recorded at a node fits what is recorded elsewhere. -/
def VertexFits (g : Graph α) (x : NodeId) (v : Vertex α) : Prop :=
  x ∈ g.ids ∧ v.outs.Nodup ∧ v.ins.Nodup ∧ x ∉ v.outs ∧
    (∀ b ∈ v.outs, x ∈ g.predecessors b) ∧ ∀ a ∈ v.ins, x ∈ g.successors a

instance (x : NodeId) (v : Vertex α) : Decidable (g.VertexFits x v) :=
  inferInstanceAs (Decidable (_ ∧ _))

theorem forall_vertices {P : NodeId → Vertex α → Prop} : (∀ p ∈ g.vertices.toList, P p.1 p.2) ↔
    ∀ x v, g.vertices[x]? = some v → P x v := by
  constructor
  · intro h x v hv
    exact h (x, v) (Std.TreeMap.mem_toList_iff_getElem?_eq_some.mpr hv)
  · rintro h ⟨x, v⟩ hp
    exact h x v (Std.TreeMap.mem_toList_iff_getElem?_eq_some.mp hp)

/-- What is recorded at the nodes is what the views tell. -/
theorem forall_vertices_outs {P : NodeId → NodeId → Prop} :
    (∀ p ∈ g.vertices.toList, ∀ b ∈ p.2.outs, P p.1 b) ↔ ∀ a b, b ∈ g.successors a → P a b := by
  rw [forall_vertices (P := fun a v => ∀ b ∈ v.outs, P a b)]
  constructor
  · intro h a b hb
    obtain ⟨v, hv⟩ := Option.isSome_iff_exists.mp
      (contains_eq.symm.trans (contains_of_mem_successors hb))
    exact h a v hv b ((getElem?_vertices.mp hv).2.1 ▸ hb)
  · intro h a v hv b hb
    exact h a b ((getElem?_vertices.mp hv).2.1 ▸ hb)

theorem forall_vertices_ins {P : NodeId → NodeId → Prop} :
    (∀ p ∈ g.vertices.toList, ∀ a ∈ p.2.ins, P p.1 a) ↔ ∀ b a, a ∈ g.predecessors b → P b a := by
  rw [forall_vertices (P := fun b v => ∀ a ∈ v.ins, P b a)]
  constructor
  · intro h b a ha
    obtain ⟨v, hv⟩ := Option.isSome_iff_exists.mp
      (contains_eq.symm.trans (contains_of_mem_predecessors ha))
    exact h b v hv a ((getElem?_vertices.mp hv).2.2 ▸ ha)
  · intro h b v hv a ha
    exact h b a ((getElem?_vertices.mp hv).2.2 ▸ ha)

/-- What the check of the edges checks, of any graph. -/
theorem checkConsistency_eq_ok : g.checkConsistency = .ok () ↔
    (∀ a b, b ∈ g.successors a → g.contains b = true ∧ a ∈ g.predecessors b) ∧
      ∀ b a, a ∈ g.predecessors b → b ∈ g.successors a := by
  unfold checkConsistency
  rw [Pass.except_bind_unit_eq_ok, Pass.except_bind_unit_eq_ok]
  refine and_congr ?_ ((and_iff_left rfl).trans ?_)
  · rw [← forall_vertices_outs, forIn_forIn_eq_ok fun p b r h => ?_]
    · refine forall₂_congr fun p _ => forall₂_congr fun b _ => ?_
      cases g.contains b <;> cases hb : (g.predecessors b).contains p.1 <;> simp_all
    · dsimp only at h
      split at h
      · split at h
        · exact (Except.ok.inj h).symm
        · simp at h
      · simp at h
  · rw [← forall_vertices_ins, forIn_forIn_eq_ok fun p a r h => ?_]
    · refine forall₂_congr fun p _ => forall₂_congr fun a _ => ?_
      cases ha : (g.successors a).contains p.1 <;> simp_all
    · split at h
      · exact (Except.ok.inj h).symm
      · simp at h

theorem WellFormed.checkConsistency (h : g.WellFormed) : g.checkConsistency = .ok () :=
  checkConsistency_eq_ok.mpr ⟨fun a b hb => ⟨h.target hb, (h.edge a b).mp hb⟩,
    fun b a ha => (h.edge a b).mpr ha⟩

theorem wellFormed_iff : g.WellFormed ↔ g.ids.Nodup ∧ (∀ id ∈ g.ids, g.contains id = true) ∧
    ∀ p ∈ g.vertices.toList, g.VertexFits p.1 p.2 := by
  rw [forall_vertices]
  constructor
  · refine fun h => ⟨h.ids_nodup, fun id hid => h.contains_of_mem hid, fun x v hv => ?_⟩
    obtain ⟨-, hsuc, hpre⟩ := getElem?_vertices.mp hv
    rw [VertexFits, ← hsuc, ← hpre]
    exact ⟨(h.mem_ids x).mpr (by simp [contains_eq, hv]), h.outs_nodup x, h.ins_nodup x,
      h.irrefl x, fun b hb => (h.edge x b).mp hb, fun a ha => (h.edge a x).mpr ha⟩
  · rintro ⟨hnodup, hids, hfits⟩
    -- a key without a node has no edges
    have hview : ∀ x, (g.vertices[x]? = none ∧ g.successors x = [] ∧ g.predecessors x = []) ∨
        ∃ v, g.vertices[x]? = some v ∧ g.successors x = v.outs ∧ g.predecessors x = v.ins :=
      fun x => by
        unfold successors predecessors
        cases g.vertices[x]? with
        | none => exact .inl ⟨rfl, rfl, rfl⟩
        | some v => exact .inr ⟨v, rfl, rfl, rfl⟩
    refine ⟨hnodup, fun id => ⟨hids id, fun hid => ?_⟩, fun a => ?_, fun b => ?_, fun a b => ?_,
      fun a => ?_⟩
    · rcases hview id with ⟨hv, -⟩ | ⟨v, hv, -⟩
      · simp [contains_eq, hv] at hid
      · exact (hfits id v hv).1
    · rcases hview a with ⟨-, hs, -⟩ | ⟨v, hv, hs, -⟩
      · simp [hs]
      · rw [hs]
        exact (hfits a v hv).2.1
    · rcases hview b with ⟨-, -, hp⟩ | ⟨v, hv, -, hp⟩
      · simp [hp]
      · rw [hp]
        exact (hfits b v hv).2.2.1
    · constructor
      · intro hb
        rcases hview a with ⟨-, hs, -⟩ | ⟨v, hv, hs, -⟩
        · simp [hs] at hb
        · exact (hfits a v hv).2.2.2.2.1 b (hs ▸ hb)
      · intro ha
        rcases hview b with ⟨-, -, hp⟩ | ⟨v, hv, -, hp⟩
        · simp [hp] at ha
        · exact (hfits b v hv).2.2.2.2.2 a (hp ▸ ha)
    · rcases hview a with ⟨-, hs, -⟩ | ⟨v, hv, hs, -⟩
      · simp [hs]
      · rw [hs]
        exact (hfits a v hv).2.2.2.1

instance : Decidable g.WellFormed := decidable_of_iff _ wellFormed_iff.symm

instance : Decidable g.KeysBelow :=
  inferInstanceAs (Decidable (∀ id ∈ g.ids, id.val.toNat < g.nextKey.toNat))

end Dataflow.Graph

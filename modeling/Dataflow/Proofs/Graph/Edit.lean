import Dataflow.Proofs.Graph.WellFormed
import Mathlib.Data.List.InsertIdx

/-!
# Edits of well-formed graphs

What each edit does to the views of a graph, and that every edit keeps graphs well-formed. The
elementary edits `link`, `unlink`, `place`, `remove` and `update` come first, with one equation for
each view; the checked edits are inverted to them (`connectAt_eq_ok`, `disconnect_eq_ok`,
`remove_eq_ok`). What they do to an edge is said by `Drawn` and `Cut`, of which the composed edits
are made. Since an edge keeps to its slots, edits undo each other without a trace in the lists of
edges (`edits_undone`).
-/

namespace Dataflow.Graph

variable {α : Type} {g g' : Graph α} {a b x y id : NodeId} {i j : Nat} {c : α}

/-! ## Contents -/

section Update

variable {f : α → α}

@[simp] theorem successors_update : (g.update a f).successors x = g.successors x := by
  unfold successors update
  rw [getElem?_modify]
  by_cases h : x = a
  · cases g.vertices[x]? <;> simp [h]
  · simp [h]

@[simp] theorem predecessors_update : (g.update a f).predecessors x = g.predecessors x := by
  unfold predecessors update
  rw [getElem?_modify]
  by_cases h : x = a
  · cases g.vertices[x]? <;> simp [h]
  · simp [h]

theorem content?_update :
    (g.update a f).content? x = if x = a then (g.content? x).map f else g.content? x := by
  unfold content? update
  rw [getElem?_modify]
  by_cases h : x = a
  · cases g.vertices[x]? <;> simp [h]
  · simp [h]

@[simp] theorem contains_update : (g.update a f).contains x = g.contains x := by
  rw [← content?_isSome, ← content?_isSome, content?_update]
  by_cases h : x = a <;> simp [h]

@[simp] theorem ids_update : (g.update a f).ids = g.ids := rfl

@[simp] theorem nextKey_update : (g.update a f).nextKey = g.nextKey := rfl

end Update

theorem content?_place : (g.place id c).content? x = if x = id then some c else g.content? x := by
  unfold content? place
  rw [getElem?_insert]
  by_cases h : x = id <;> simp [h]

@[simp] theorem successors_place : (g.place id c).successors x = g.successors x := by
  conv_lhs => unfold successors place
  rw [getElem?_insert]
  by_cases h : x = id
  · simp [h]
  · simp only [h, if_false]; rfl

@[simp] theorem predecessors_place : (g.place id c).predecessors x = g.predecessors x := by
  conv_lhs => unfold predecessors place
  rw [getElem?_insert]
  by_cases h : x = id
  · simp [h]
  · simp only [h, if_false]; rfl

theorem contains_place : (g.place id c).contains x = (decide (x = id) || g.contains x) := by
  rw [← content?_isSome, ← content?_isSome, content?_place]
  by_cases h : x = id <;> simp [h]

@[simp] theorem ids_place : (g.place id c).ids = g.ids ++ [id] := rfl

theorem remove_eq_ok : g.remove id = .ok (c, g') ↔
    g.content? id = some c ∧ g.predecessors id = [] ∧ g.successors id = [] ∧
      g' = { g with vertices := g.vertices.erase id, ids := g.ids.filter (· != id) } := by
  unfold remove content? predecessors successors
  cases hv : g.vertices[id]? with
  | none => simp
  | some v =>
    by_cases he : v.ins.length + v.outs.length > 0
    · have : ¬(v.ins = [] ∧ v.outs = []) := by
        rintro ⟨h1, h2⟩
        simp [h1, h2] at he
      simp only [he, if_true, reduceCtorEq, false_iff]
      rintro ⟨-, h1, h2, -⟩
      exact this ⟨h1, h2⟩
    · have h1 : v.ins = [] := List.length_eq_zero_iff.mp (by omega)
      have h2 : v.outs = [] := List.length_eq_zero_iff.mp (by omega)
      simp [h1, h2, eq_comm]

section Erase

variable (g) (id)

/-- The graph without a node; edges are left alone. -/
def erased : Graph α :=
  { g with vertices := g.vertices.erase id, ids := g.ids.filter (· != id) }

theorem content?_erased : (g.erased id).content? x = if x = id then none else g.content? x := by
  unfold content? erased
  rw [getElem?_erase]
  by_cases h : x = id <;> simp [h]

theorem successors_erased :
    (g.erased id).successors x = if x = id then [] else g.successors x := by
  unfold successors erased
  rw [getElem?_erase]
  by_cases h : x = id <;> simp [h]

theorem predecessors_erased :
    (g.erased id).predecessors x = if x = id then [] else g.predecessors x := by
  unfold predecessors erased
  rw [getElem?_erase]
  by_cases h : x = id <;> simp [h]

theorem contains_erased : (g.erased id).contains x = (decide (x ≠ id) && g.contains x) := by
  rw [← content?_isSome, ← content?_isSome, content?_erased]
  by_cases h : x = id <;> simp [h]

end Erase

/-! ## Edges -/

section Link

variable (hab : a ≠ b)
include hab

theorem content?_link : (g.link a i b j).content? x = g.content? x := by
  unfold content? link
  rw [getElem?_modify, getElem?_modify]
  by_cases h : x = b
  · cases g.vertices[x]? <;> simp [h, Ne.symm hab]
  · by_cases h' : x = a
    · cases g.vertices[x]? <;> simp [h', hab]
    · simp [h, h']

theorem successors_link (ha : g.contains a = true) : (g.link a i b j).successors x =
    if x = a then (g.successors a).insertIdx i b else g.successors x := by
  rw [contains_eq] at ha
  unfold successors link
  rw [getElem?_modify, getElem?_modify]
  by_cases h : x = a
  · subst h
    cases hv : g.vertices[x]? with
    | none => simp [hv] at ha
    | some v => simp [hab]
  · by_cases h' : x = b
    · cases g.vertices[x]? <;> simp [h', Ne.symm hab]
    · simp [h, h']

theorem predecessors_link (hb : g.contains b = true) : (g.link a i b j).predecessors x =
    if x = b then (g.predecessors b).insertIdx j a else g.predecessors x := by
  rw [contains_eq] at hb
  unfold predecessors link
  rw [getElem?_modify, getElem?_modify]
  by_cases h : x = b
  · subst h
    cases hv : g.vertices[x]? with
    | none => simp [hv] at hb
    | some v => simp [Ne.symm hab]
  · by_cases h' : x = a
    · cases g.vertices[x]? <;> simp [h', hab]
    · simp [h, h']

theorem content?_unlink : (g.unlink a i b j).content? x = g.content? x := by
  unfold content? unlink
  rw [getElem?_modify, getElem?_modify]
  by_cases h : x = b
  · cases g.vertices[x]? <;> simp [h, Ne.symm hab]
  · by_cases h' : x = a
    · cases g.vertices[x]? <;> simp [h', hab]
    · simp [h, h']

theorem successors_unlink : (g.unlink a i b j).successors x =
    if x = a then (g.successors a).eraseIdx i else g.successors x := by
  unfold successors unlink
  rw [getElem?_modify, getElem?_modify]
  by_cases h : x = a
  · subst h
    cases g.vertices[x]? <;> simp [hab]
  · by_cases h' : x = b
    · cases g.vertices[x]? <;> simp [h', Ne.symm hab]
    · simp [h, h']

theorem predecessors_unlink : (g.unlink a i b j).predecessors x =
    if x = b then (g.predecessors b).eraseIdx j else g.predecessors x := by
  unfold predecessors unlink
  rw [getElem?_modify, getElem?_modify]
  by_cases h : x = b
  · subst h
    cases g.vertices[x]? <;> simp [Ne.symm hab]
  · by_cases h' : x = a
    · cases g.vertices[x]? <;> simp [h', hab]
    · simp [h, h']

end Link

theorem contains_link (hab : a ≠ b) : (g.link a i b j).contains x = g.contains x := by
  rw [← content?_isSome, ← content?_isSome, content?_link hab]

theorem contains_unlink (hab : a ≠ b) : (g.unlink a i b j).contains x = g.contains x := by
  rw [← content?_isSome, ← content?_isSome, content?_unlink hab]

/-! ## Checked edits -/

theorem connectAt_eq_ok : g.connectAt a i b j = .ok g' ↔
    (g.contains a = true ∧ g.contains b = true ∧ a ≠ b ∧ b ∉ g.successors a ∧
      i ≤ (g.successors a).length ∧ j ≤ (g.predecessors b).length) ∧ g' = g.link a i b j := by
  unfold connectAt
  by_cases h1 : g.contains a = true <;> simp only [h1, Bool.not_true, Bool.not_false,
    Bool.false_eq_true, if_true, if_false, false_and, reduceCtorEq, true_and]
  by_cases h2 : g.contains b = true <;> simp only [h2, Bool.not_true, Bool.not_false,
    Bool.false_eq_true, if_true, if_false, false_and, reduceCtorEq, true_and]
  by_cases h3 : a = b
  · simp [h3]
  by_cases h4 : g.isConnected a b = true
  · simp [h3, h4, isConnected_iff.mp h4]
  have h4' : b ∉ g.successors a := fun h => h4 (isConnected_iff.mpr h)
  by_cases h5 : i > (g.successors a).length
  · simp [h3, h4, h5, Nat.not_le_of_lt h5]
  by_cases h6 : j > (g.predecessors b).length
  · simp [h3, h4, h5, h6, Nat.not_le_of_lt h6]
  · simp [h3, h4, h4', h5, h6, Nat.le_of_not_lt h5, Nat.le_of_not_lt h6, eq_comm]

theorem disconnect_eq_ok : g.disconnect a b = .ok ((i, j), g') ↔
    (g.successors a).idxOf? b = some i ∧ (g.predecessors b).idxOf? a = some j ∧
      g' = g.unlink a i b j := by
  unfold disconnect
  cases (g.successors a).idxOf? b with
  | none => simp
  | some i' =>
    cases (g.predecessors b).idxOf? a with
    | none => simp
    | some j' =>
      simp only [Except.ok.injEq, Prod.mk.injEq, Option.some.injEq]
      constructor
      · rintro ⟨⟨rfl, rfl⟩, rfl⟩; exact ⟨rfl, rfl, rfl⟩
      · rintro ⟨rfl, rfl, rfl⟩; exact ⟨⟨rfl, rfl⟩, rfl⟩

/-! ## Well-formedness -/

theorem eraseIdx_of_idxOf? {β : Type} [DecidableEq β] {l : List β} {b : β} {i : Nat}
    (h : l.idxOf? b = some i) : l.eraseIdx i = l.erase b := by
  obtain ⟨hi, hb, hmin⟩ := List.idxOf?_eq_some_iff.mp h
  refine (List.erase_eq_eraseIdx_of_idxOf ?_).symm
  rw [List.idxOf, List.findIdx_eq hi]
  exact ⟨by simp [hb], fun j hj => by simpa using hmin j hj⟩

theorem exists_idxOf? {β : Type} [DecidableEq β] {l : List β} {b : β} (h : b ∈ l) :
    ∃ i, l.idxOf? b = some i :=
  Option.isSome_iff_exists.mp (by simpa [List.isSome_idxOf?] using h)

theorem mem_of_idxOf? {β : Type} [DecidableEq β] {l : List β} {b : β} {i : Nat}
    (h : l.idxOf? b = some i) : b ∈ l := by
  obtain ⟨hi, rfl, -⟩ := List.idxOf?_eq_some_iff.mp h
  exact List.getElem_mem hi

theorem lt_of_idxOf? {β : Type} [DecidableEq β] {l : List β} {b : β} {i : Nat}
    (h : l.idxOf? b = some i) : i < l.length :=
  (List.idxOf?_eq_some_iff.mp h).1

theorem nodup_insertIdx {β : Type} {l : List β} {b : β} {i : Nat} (hi : i ≤ l.length)
    (hl : l.Nodup) (hb : b ∉ l) : (l.insertIdx i b).Nodup :=
  (List.perm_insertIdx b l hi).nodup_iff.mpr (List.nodup_cons.mpr ⟨hb, hl⟩)

namespace WellFormed

theorem empty : (Graph.empty : Graph α).WellFormed where
  ids_nodup := List.nodup_nil
  mem_ids _ := by simp [Graph.empty, contains]
  outs_nodup _ := by simp [Graph.empty, successors]
  ins_nodup _ := by simp [Graph.empty, predecessors]
  edge _ _ := by simp [Graph.empty, successors, predecessors]
  irrefl _ := by simp [Graph.empty, successors]

/-- Well-formedness is a matter of the views. -/
theorem congr (h : g.WellFormed) (hids : g'.ids = g.ids)
    (hcontains : ∀ x, g'.contains x = g.contains x)
    (houts : ∀ x, g'.successors x = g.successors x)
    (hins : ∀ x, g'.predecessors x = g.predecessors x) : g'.WellFormed where
  ids_nodup := hids ▸ h.ids_nodup
  mem_ids x := by rw [hids, hcontains]; exact h.mem_ids x
  outs_nodup x := houts x ▸ h.outs_nodup x
  ins_nodup x := hins x ▸ h.ins_nodup x
  edge x y := by rw [houts, hins]; exact h.edge x y
  irrefl x := by rw [houts]; exact h.irrefl x

theorem update (h : g.WellFormed) {f : α → α} : (g.update a f).WellFormed :=
  h.congr rfl (fun _ => contains_update) (fun _ => successors_update)
    fun _ => predecessors_update

theorem nextKey (h : g.WellFormed) {k : UInt64} : ({ g with nextKey := k } : Graph α).WellFormed :=
  h.congr rfl (fun _ => rfl) (fun _ => rfl) fun _ => rfl

theorem place (h : g.WellFormed) (hid : g.contains id = false) : (g.place id c).WellFormed where
  ids_nodup := by
    rw [ids_place]
    refine List.nodup_append.mpr ⟨h.ids_nodup, by simp, ?_⟩
    rintro x hx y hy rfl
    have := h.contains_of_mem hx
    simp_all
  mem_ids x := by
    rw [contains_place, ids_place, List.mem_append, h.mem_ids]
    simp [or_comm]
  outs_nodup x := by rw [successors_place]; exact h.outs_nodup x
  ins_nodup x := by rw [predecessors_place]; exact h.ins_nodup x
  edge x y := by rw [successors_place, predecessors_place]; exact h.edge x y
  irrefl x := by rw [successors_place]; exact h.irrefl x

theorem link (h : g.WellFormed) (ha : g.contains a = true) (hb : g.contains b = true)
    (hab : a ≠ b) (hnew : b ∉ g.successors a) (hi : i ≤ (g.successors a).length)
    (hj : j ≤ (g.predecessors b).length) : (g.link a i b j).WellFormed where
  ids_nodup := h.ids_nodup
  mem_ids x := by rw [contains_link hab]; exact h.mem_ids x
  outs_nodup x := by
    rw [successors_link hab ha]
    split
    · exact nodup_insertIdx hi (h.outs_nodup a) hnew
    · exact h.outs_nodup x
  ins_nodup x := by
    rw [predecessors_link hab hb]
    split
    · exact nodup_insertIdx hj (h.ins_nodup b) fun hm => hnew ((h.edge a b).mpr hm)
    · exact h.ins_nodup x
  edge x y := by
    rw [successors_link hab ha, predecessors_link hab hb]
    have hmo := fun z => List.mem_insertIdx (a := z) (b := b) hi
    have hmi := fun z => List.mem_insertIdx (a := z) (b := a) hj
    have he := h.edge x y
    by_cases hx : x = a <;> by_cases hy : y = b <;> subst_vars <;>
      simp_all
  irrefl x := by
    rw [successors_link hab ha]
    split
    · rename_i hx
      subst hx
      rw [List.mem_insertIdx hi]
      rintro (rfl | hm)
      · exact hab rfl
      · exact h.irrefl _ hm
    · exact h.irrefl x

theorem unlink (h : g.WellFormed) (hab : a ≠ b) (hi : (g.successors a).idxOf? b = some i)
    (hj : (g.predecessors b).idxOf? a = some j) : (g.unlink a i b j).WellFormed where
  ids_nodup := h.ids_nodup
  mem_ids x := by rw [contains_unlink hab]; exact h.mem_ids x
  outs_nodup x := by
    rw [successors_unlink hab]
    split
    · exact (h.outs_nodup a).sublist (List.eraseIdx_sublist ..)
    · exact h.outs_nodup x
  ins_nodup x := by
    rw [predecessors_unlink hab]
    split
    · exact (h.ins_nodup b).sublist (List.eraseIdx_sublist ..)
    · exact h.ins_nodup x
  edge x y := by
    rw [successors_unlink hab, predecessors_unlink hab, eraseIdx_of_idxOf? hi,
      eraseIdx_of_idxOf? hj]
    have he := h.edge x y
    have ho := (h.outs_nodup a).mem_erase_iff (a := y) (b := b)
    have hn := (h.ins_nodup b).mem_erase_iff (a := x) (b := a)
    by_cases hx : x = a <;> by_cases hy : y = b <;> subst_vars <;>
      simp_all
  irrefl x := by
    rw [successors_unlink hab]
    split
    · rename_i hx
      subst hx
      exact fun hm => h.irrefl _ (List.mem_of_mem_eraseIdx hm)
    · exact h.irrefl x

theorem erased (h : g.WellFormed) (hins : g.predecessors id = [])
    (houts : g.successors id = []) : (g.erased id).WellFormed where
  ids_nodup := h.ids_nodup.filter _
  mem_ids x := by
    rw [contains_erased]
    change x ∈ g.ids.filter (· != id) ↔ _
    rw [List.mem_filter, h.mem_ids]
    simp [and_comm]
  outs_nodup x := by
    rw [successors_erased]
    split
    · exact List.nodup_nil
    · exact h.outs_nodup x
  ins_nodup x := by
    rw [predecessors_erased]
    split
    · exact List.nodup_nil
    · exact h.ins_nodup x
  edge x y := by
    rw [successors_erased, predecessors_erased]
    have he := h.edge x y
    by_cases hx : x = id <;> by_cases hy : y = id <;> subst_vars <;> simp_all
  irrefl x := by
    rw [successors_erased]
    split
    · simp
    · exact h.irrefl x

theorem connectAt (h : g.WellFormed) (hc : g.connectAt a i b j = .ok g') : g'.WellFormed := by
  obtain ⟨⟨ha, hb, hab, hnew, hi, hj⟩, rfl⟩ := connectAt_eq_ok.mp hc
  exact h.link ha hb hab hnew hi hj

theorem disconnect (h : g.WellFormed) (hc : g.disconnect a b = .ok ((i, j), g')) :
    g'.WellFormed := by
  obtain ⟨hi, hj, rfl⟩ := disconnect_eq_ok.mp hc
  exact h.unlink (h.ne_of_edge (mem_of_idxOf? hi)) hi hj

theorem remove (h : g.WellFormed) (hc : g.remove id = .ok (c, g')) : g'.WellFormed := by
  obtain ⟨-, hins, houts, rfl⟩ := remove_eq_ok.mp hc
  exact h.erased hins houts

end WellFormed

/-! ## Graphs that are partly the same -/

/-- The nodes of two graphs are the same, the edges aside. -/
structure SameNodes (g g' : Graph α) : Prop where
  ids : g'.ids = g.ids
  nextKey : g'.nextKey = g.nextKey
  content? : ∀ z, g'.content? z = g.content? z

namespace SameNodes

theorem refl : SameNodes g g := ⟨rfl, rfl, fun _ => rfl⟩

theorem trans {g'' : Graph α} (h : SameNodes g g') (h' : SameNodes g' g'') : SameNodes g g'' :=
  ⟨h'.ids.trans h.ids, h'.nextKey.trans h.nextKey, fun z => (h'.content? z).trans (h.content? z)⟩

theorem contains (h : SameNodes g g') : g'.contains x = g.contains x := by
  rw [← content?_isSome, ← content?_isSome, h.content?]

end SameNodes

/-- A node is the same in both graphs, with its edges. -/
structure SameAt (g g' : Graph α) (x : NodeId) : Prop where
  content : g'.content? x = g.content? x
  successors : g'.successors x = g.successors x
  predecessors : g'.predecessors x = g.predecessors x

namespace SameAt

theorem trans {g'' : Graph α} (h : SameAt g g' x) (h' : SameAt g' g'' x) : SameAt g g'' x :=
  ⟨h'.content.trans h.content, h'.successors.trans h.successors,
    h'.predecessors.trans h.predecessors⟩

theorem contains (h : SameAt g g' x) : g'.contains x = g.contains x := by
  rw [← content?_isSome, h.content, content?_isSome]

end SameAt

/-- The same nodes, listed alike, with the same edges in the same places. -/
structure Unchanged (g g' : Graph α) : Prop where
  nodes : SameNodes g g'
  successors : ∀ z, g'.successors z = g.successors z
  predecessors : ∀ z, g'.predecessors z = g.predecessors z

theorem Unchanged.refl : Unchanged g g := ⟨.refl, fun _ => rfl, fun _ => rfl⟩

/-! ## One edge -/

/-- An edge has been drawn that is output `i` of `a` and input `j` of `b`. -/
structure Drawn (g g' : Graph α) (a : NodeId) (i : Nat) (b : NodeId) (j : Nat) : Prop where
  nodes : SameNodes g g'
  successors : ∀ z, g'.successors z =
    if z = a then (g.successors a).insertIdx i b else g.successors z
  predecessors : ∀ z, g'.predecessors z =
    if z = b then (g.predecessors b).insertIdx j a else g.predecessors z

/-- The edge has been cut that was output `i` of `a` and input `j` of `b`. -/
structure Cut (g g' : Graph α) (a : NodeId) (i : Nat) (b : NodeId) (j : Nat) : Prop where
  nodes : SameNodes g g'
  successors : ∀ z, g'.successors z = if z = a then (g.successors a).eraseIdx i else g.successors z
  predecessors : ∀ z, g'.predecessors z =
    if z = b then (g.predecessors b).eraseIdx j else g.predecessors z

theorem Drawn.outs (h : Drawn g g' a i b j) : g'.successors a = (g.successors a).insertIdx i b := by
  rw [h.successors, if_pos rfl]

theorem Drawn.ins (h : Drawn g g' a i b j) :
    g'.predecessors b = (g.predecessors b).insertIdx j a := by
  rw [h.predecessors, if_pos rfl]

theorem Cut.outs (h : Cut g g' a i b j) : g'.successors a = (g.successors a).eraseIdx i := by
  rw [h.successors, if_pos rfl]

theorem Cut.ins (h : Cut g g' a i b j) : g'.predecessors b = (g.predecessors b).eraseIdx j := by
  rw [h.predecessors, if_pos rfl]

theorem drawn_of_connectAt (hc : g.connectAt a i b j = .ok g') : Drawn g g' a i b j := by
  obtain ⟨⟨ha, hb, hab, -⟩, rfl⟩ := connectAt_eq_ok.mp hc
  exact ⟨⟨rfl, rfl, fun _ => content?_link hab⟩, fun _ => successors_link hab ha,
    fun _ => predecessors_link hab hb⟩

/-- What connecting two nodes changes. -/
theorem connect_views (h : g.connect a b = .ok g') : (∀ x, g'.content? x = g.content? x) ∧
    (∀ x, g'.successors x = if x = a then g.successors a ++ [b] else g.successors x) ∧
    (∀ x, g'.predecessors x = if x = b then g.predecessors b ++ [a] else g.predecessors x) ∧
    g'.ids = g.ids := by
  have hdrawn := drawn_of_connectAt h
  refine ⟨hdrawn.nodes.content?, fun x => ?_, fun x => ?_, hdrawn.nodes.ids⟩
  · rw [hdrawn.successors, List.insertIdx_length_self]
  · rw [hdrawn.predecessors, List.insertIdx_length_self]

namespace WellFormed

theorem cut_of_disconnect (h : g.WellFormed) (hd : g.disconnect a b = .ok ((i, j), g')) :
    Cut g g' a i b j := by
  obtain ⟨hi, -, rfl⟩ := disconnect_eq_ok.mp hd
  have hab := h.ne_of_edge (mem_of_idxOf? hi)
  exact ⟨⟨rfl, rfl, fun _ => content?_unlink hab⟩, fun _ => successors_unlink hab,
    fun _ => predecessors_unlink hab⟩

theorem exists_connectAt (h : g.WellFormed) (ha : g.contains a = true) (hb : g.contains b = true)
    (hab : a ≠ b) (hnew : b ∉ g.successors a) (hi : i ≤ (g.successors a).length)
    (hj : j ≤ (g.predecessors b).length) :
    ∃ g', g.connectAt a i b j = .ok g' ∧ g'.WellFormed ∧ Drawn g g' a i b j := by
  have hc := connectAt_eq_ok.mpr ⟨⟨ha, hb, hab, hnew, hi, hj⟩, rfl⟩
  exact ⟨_, hc, h.connectAt hc, drawn_of_connectAt hc⟩

theorem exists_disconnect (h : g.WellFormed) (hb : b ∈ g.successors a) :
    ∃ i j g', (g.successors a).idxOf? b = some i ∧ (g.predecessors b).idxOf? a = some j ∧
      g.disconnect a b = .ok ((i, j), g') ∧ g'.WellFormed ∧ Cut g g' a i b j := by
  obtain ⟨i, hi⟩ := exists_idxOf? hb
  obtain ⟨j, hj⟩ := exists_idxOf? ((h.edge a b).mp hb)
  have hd := disconnect_eq_ok.mpr ⟨hi, hj, rfl⟩
  exact ⟨i, j, _, hi, hj, hd, h.disconnect hd, h.cut_of_disconnect hd⟩

end WellFormed

/-! ## Leading an edge to another node -/

/-- `y` in the place of `x`. -/
def renamed (x y z : NodeId) : NodeId := if z = x then y else z

theorem renamed_of_ne (h : a ≠ x) : renamed x y a = a := by simp [renamed, h]

@[simp] theorem renamed_self : renamed x y x = y := by simp [renamed]

/-- Where `y` does not occur, putting it in the place of `x` can be undone. -/
theorem renamed_back (ha : a ≠ y) : renamed y x (renamed x y a) = a := by
  by_cases hx : a = x
  · rw [hx, renamed_self, renamed_self]
  · rw [renamed_of_ne hx, renamed_of_ne ha]

theorem map_renamed_back {l : List NodeId} (hy : y ∉ l) :
    (l.map (renamed x y)).map (renamed y x) = l := by
  rw [List.map_map]
  conv_rhs => rw [← List.map_id l]
  refine List.map_congr_left fun a ha => renamed_back ?_
  rintro rfl
  exact hy ha

/-- Renaming brings in nothing but the new name. -/
theorem mem_of_mem_map_renamed {l : List NodeId} (h : a ∈ l.map (renamed x y)) (ha : a ≠ y) :
    a ∈ l ∧ a ≠ x := by
  obtain ⟨z, hz, rfl⟩ := List.mem_map.mp h
  by_cases hzx : z = x
  · rw [hzx, renamed_self] at ha
    exact absurd rfl ha
  · rw [renamed_of_ne hzx]
    exact ⟨hz, hzx⟩

theorem map_renamed_of_notMem {l : List NodeId} (h : x ∉ l) : l.map (renamed x y) = l := by
  conv_rhs => rw [← List.map_id l]
  exact List.map_congr_left fun z hz => renamed_of_ne fun e => h (e ▸ hz)

/-- What takes over the place of a removed entry stands for it. -/
theorem insertIdx_eraseIdx_eq_map : ∀ {l : List NodeId} {j : Nat}, l.Nodup →
    l.idxOf? x = some j → (l.eraseIdx j).insertIdx j y = l.map (renamed x y)
  | [], _, _, h => absurd h (by simp)
  | z :: l, j, hl, h => by
    obtain ⟨hz, hl⟩ := List.nodup_cons.mp hl
    rw [List.idxOf?_cons] at h
    by_cases hzx : z = x
    · subst hzx
      obtain rfl : 0 = j := by simpa using h
      simp [map_renamed_of_notMem hz]
    · obtain ⟨k, hk, rfl⟩ : ∃ k, l.idxOf? x = some k ∧ k + 1 = j := by simpa [hzx] using h
      simp [renamed_of_ne hzx, insertIdx_eraseIdx_eq_map hl hk]

/-- An edge from `x` to `s` can be led from output slot `slot` of `y` instead, without another
effect. -/
theorem WellFormed.reroute (h : g.WellFormed) {s : NodeId} {slot : Nat} (hs : s ∈ g.successors x)
    (hy : g.contains y = true) (hyx : y ≠ x) (hys : y ≠ s) (hnew : s ∉ g.successors y)
    (hslot : slot ≤ (g.successors y).length) :
    ∃ i j g₁ g₂, g.disconnect x s = .ok ((i, j), g₁) ∧ g₁.connectAt y slot s j = .ok g₂ ∧
      (g₁.WellFormed ∧ g₁.predecessors s = (g.predecessors s).erase x) ∧
      g₂.WellFormed ∧ SameNodes g g₂ ∧
      (∀ z, g₂.predecessors z =
        if z = s then (g.predecessors s).map (renamed x y) else g.predecessors z) ∧
      ∀ z, g₂.successors z = if z = x then (g.successors x).erase s
        else if z = y then (g.successors y).insertIdx slot s else g.successors z := by
  obtain ⟨i, j, g₁, hi, hj, hd, h₁, hcut⟩ := h.exists_disconnect hs
  have hout : g₁.successors y = g.successors y := by rw [hcut.successors, if_neg hyx]
  have hlt : j < (g.predecessors s).length := lt_of_idxOf? hj
  obtain ⟨g₂, hc, h₂, hdrawn⟩ := h₁.exists_connectAt (i := slot) (j := j)
    (hcut.nodes.contains.trans hy) (hcut.nodes.contains.trans (h.target hs)) hys (by rwa [hout])
    (by rwa [hout]) (by rw [hcut.ins, List.length_eraseIdx_of_lt hlt]; omega)
  refine ⟨i, j, g₁, g₂, hd, hc, ⟨h₁, ?_⟩, h₂, hcut.nodes.trans hdrawn.nodes, fun z => ?_,
    fun z => ?_⟩
  · rw [hcut.ins, eraseIdx_of_idxOf? hj]
  · rw [hdrawn.predecessors, hcut.ins, insertIdx_eraseIdx_eq_map (h.ins_nodup s) hj]
    by_cases hz : z = s
    · simp [hz]
    · simp [hz, hcut.predecessors]
  · rw [hdrawn.successors, hout]
    by_cases hz : z = y
    · subst hz; simp [hyx]
    · by_cases hzx : z = x
      · subst hzx; simp [hcut.outs, hz, eraseIdx_of_idxOf? hi]
      · simp [hz, hzx, hcut.successors]

/-! ## Composed edits -/

theorem renamed_renamed (hyx : y ≠ x) : renamed x y (renamed x y a) = renamed x y a := by
  unfold renamed
  by_cases h : a = x <;> simp [h, hyx]

theorem map_renamed_twice (hyx : y ≠ x) (l : List NodeId) :
    (l.map (renamed x y)).map (renamed x y) = l.map (renamed x y) := by
  rw [List.map_map]
  exact List.map_congr_left fun z _ => renamed_renamed hyx

/-- A list that grows at a place and goes on growing behind it. -/
theorem append_insertIdx {β : Type} {l : List β} {b : β} {i : Nat} (hi : i ≤ l.length)
    (bs : List β) : (l.insertIdx i b).take (i + 1) ++ bs ++ (l.insertIdx i b).drop (i + 1) =
      l.take i ++ b :: bs ++ l.drop i := by
  induction i generalizing l with
  | zero => simp
  | succ i ih =>
    cases l with
    | nil => simp at hi
    | cons a l => simpa using ih (l := l) (by simpa using hi)

/-- All outputs of `x` can be led from `y` instead. -/
theorem WellFormed.handOver (hyx : y ≠ x) : ∀ (outs : List NodeId) {g : Graph α} {i : Nat},
    g.WellFormed → g.successors x = outs → g.contains y = true →
    (∀ s ∈ outs, s ≠ y ∧ s ∉ g.successors y) → i ≤ (g.successors y).length →
    ∃ g', handOver x (some y) i outs g = .ok () g' ∧ g'.WellFormed ∧ SameNodes g g' ∧
      (∀ z, g'.predecessors z = (g.predecessors z).map (renamed x y)) ∧
      ∀ z, g'.successors z = if z = x then []
        else if z = y then (g.successors y).take i ++ outs ++ (g.successors y).drop i
        else g.successors z
  | [], g, _, h, hout, _, _, _ => by
    refine ⟨g, rfl, h, .refl, fun z => (map_renamed_of_notMem fun hx => ?_).symm, fun z => ?_⟩
    · have := (h.edge x z).mpr hx
      simp [hout] at this
    · split_ifs with hzx hzy
      · rw [hzx, hout]
      · rw [hzy, List.append_nil, List.take_append_drop]
      · rfl
  | s :: rest, g, i, h, hout, hy, hnew, hi => by
    have hs : s ∈ g.successors x := by simp [hout]
    obtain ⟨hsy, hsnew⟩ := hnew s (by simp)
    obtain ⟨k, j, g₁, g₂, hd, hc, -, hg₂, hsame, hpre, hsuc⟩ :=
      h.reroute hs hy hyx (Ne.symm hsy) hsnew hi
    have hnodup : (s :: rest).Nodup := hout ▸ h.outs_nodup x
    have hsrest : s ∉ rest := (List.nodup_cons.mp hnodup).1
    have hlen := List.length_insertIdx_of_le_length hi s
    have hsucy : g₂.successors y = (g.successors y).insertIdx i s := by
      rw [hsuc, if_neg hyx, if_pos rfl]
    obtain ⟨g', hrun, hg', hsame', hpre', hsuc'⟩ := WellFormed.handOver hyx rest (i := i + 1) hg₂
      (by rw [hsuc, if_pos rfl, hout]; simp) (by rw [hsame.contains]; exact hy)
      (fun t ht => by
        obtain ⟨hty, htnew⟩ := hnew t (by simp [ht])
        refine ⟨hty, ?_⟩
        rw [hsucy, List.mem_insertIdx hi]
        rintro (rfl | hmem)
        · exact hsrest ht
        · exact htnew hmem)
      (by rw [hsucy, hlen]; omega)
    refine ⟨g', ?_, hg', hsame.trans hsame', fun z => ?_, fun z => ?_⟩
    · simp only [Graph.handOver]
      rw [Pass.bind_of_ok (step_eq_ok.mpr hd)]
      exact (Pass.bind_of_ok (perform_eq_ok (u := ()).mpr hc)).trans hrun
    · rw [hpre', hpre]
      by_cases hz : z = s
      · simp only [hz, if_true, map_renamed_twice hyx]
      · simp [hz]
    · rw [hsuc', hsucy, append_insertIdx hi, hsuc]
      split_ifs <;> rfl

/-- A node can be taken out of its place if its only input is connected with none of its outputs:
they take over the slot that the node had among the outputs of its input. -/
theorem WellFormed.spliceOut_at (h : g.WellFormed) (hpx : g.predecessors x = [y])
    (hi : (g.successors y).idxOf? x = some i)
    (hnew : ∀ s ∈ g.successors x, s ≠ y ∧ s ∉ g.successors y) :
    ∃ g', Graph.spliceOut x g = .ok () g' ∧ g'.WellFormed ∧ SameNodes g g' ∧
      (∀ z, g'.predecessors z = if z = x then [] else (g.predecessors z).map (renamed x y)) ∧
      ∀ z, g'.successors z = if z = x then []
        else if z = y then
          (g.successors y).take i ++ g.successors x ++ (g.successors y).drop (i + 1)
        else g.successors z := by
  have hx : x ∈ g.successors y := mem_of_idxOf? hi
  have hyx : y ≠ x := h.ne_of_edge hx
  have hlt := lt_of_idxOf? hi
  have hd : g.disconnect y x = .ok ((i, 0), g.unlink y i x 0) :=
    disconnect_eq_ok.mpr ⟨hi, by simp [hpx, List.idxOf?_cons], rfl⟩
  have h₁ := h.disconnect hd
  have hcut := h.cut_of_disconnect hd
  generalize g.unlink y i x 0 = g₁ at hd h₁ hcut
  have hpre₁ : ∀ z, g₁.predecessors z = if z = x then [] else g.predecessors z := by
    intro z
    rw [hcut.predecessors, hpx]
    simp
  have hsucx : g₁.successors x = g.successors x := by rw [hcut.successors, if_neg (Ne.symm hyx)]
  have hsucy : g₁.successors y = (g.successors y).take i ++ (g.successors y).drop (i + 1) := by
    rw [hcut.outs, List.eraseIdx_eq_take_drop_succ]
  have htake : ((g.successors y).take i).length = i := List.length_take_of_le (by omega)
  have hnew₁ : ∀ s ∈ g.successors x, s ≠ y ∧ s ∉ g₁.successors y := by
    intro s hs
    obtain ⟨hsy, hsnew⟩ := hnew s hs
    refine ⟨hsy, fun hmem => hsnew ?_⟩
    rw [hcut.outs] at hmem
    exact List.mem_of_mem_eraseIdx hmem
  obtain ⟨g', hrun, hg', hsame, hpre, hsuc⟩ := h₁.handOver hyx _ (i := i) hsucx
    (hcut.nodes.contains.trans (contains_of_mem_successors hx)) hnew₁
    (by rw [hsucy, List.length_append, htake]; omega)
  refine ⟨g', ?_, hg', hcut.nodes.trans hsame, fun z => ?_, fun z => ?_⟩
  · unfold Graph.spliceOut
    rw [Pass.bind_of_ok Pass.get_apply, if_pos (h.target hx), hpx]
    exact (Pass.bind_of_ok (step_eq_ok.mpr hd)).trans hrun
  · rw [hpre, hpre₁]
    by_cases hz : z = x <;> simp [hz]
  · rw [hsuc, hsucy, List.take_left' htake, List.drop_left' htake]
    split_ifs with hzx hzy
    · rfl
    · rfl
    · rw [hcut.successors, if_neg hzy]

/-- Such a node can be removed from its place. -/
theorem WellFormed.bypass_at (h : g.WellFormed) (hpx : g.predecessors x = [y])
    (hi : (g.successors y).idxOf? x = some i)
    (hnew : ∀ s ∈ g.successors x, s ≠ y ∧ s ∉ g.successors y) :
    ∃ c g', Graph.bypass x g = .ok c g' ∧ g.content? x = some c ∧ g'.WellFormed ∧
      g'.ids = g.ids.filter (· != x) ∧ g'.nextKey = g.nextKey ∧
      (∀ z, g'.content? z = if z = x then none else g.content? z) ∧
      (∀ z, g'.predecessors z = if z = x then [] else (g.predecessors z).map (renamed x y)) ∧
      ∀ z, g'.successors z = if z = x then []
        else if z = y then
          (g.successors y).take i ++ g.successors x ++ (g.successors y).drop (i + 1)
        else g.successors z := by
  obtain ⟨g₁, hrun, h₁, hsame, hpre, hsuc⟩ := h.spliceOut_at hpx hi hnew
  obtain ⟨c, hc⟩ := exists_content? (h.target (mem_of_idxOf? hi))
  have hins : g₁.predecessors x = [] := by rw [hpre, if_pos rfl]
  have houts : g₁.successors x = [] := by rw [hsuc, if_pos rfl]
  have hrem : g₁.remove x = .ok (c, g₁.erased x) :=
    remove_eq_ok.mpr ⟨by rw [hsame.content?, hc], hins, houts, rfl⟩
  refine ⟨c, g₁.erased x, Pass.bind_eq_ok.mpr ⟨_, _, hrun, step_eq_ok.mpr hrem⟩, hc,
    h₁.erased hins houts, ?_, hsame.nextKey, fun z => ?_, fun z => ?_, fun z => ?_⟩
  · rw [← hsame.ids]; rfl
  · rw [content?_erased, hsame.content?]
  · rw [predecessors_erased, hpre]
    by_cases hz : z = x <;> simp [hz]
  · rw [successors_erased, hsuc]
    by_cases hz : z = x <;> simp [hz]

section OnlyOutput

variable (h : g.WellFormed) (hpx : g.predecessors x = [y]) (hsy : g.successors y = [x])
  (hback : y ∉ g.successors x)

include h hsy hback

/-- The input of a node of which it is the only output is connected with no other. -/
theorem apart_of_only_output : ∀ s ∈ g.successors x, s ≠ y ∧ s ∉ g.successors y := by
  intro s hs
  constructor
  · rintro rfl
    exact hback hs
  · rw [hsy, List.mem_singleton]
    exact Ne.symm (h.ne_of_edge hs)

include hpx

/-- A node that is the only output of its only input can be taken out of its place. -/
theorem WellFormed.spliceOut :
    ∃ g', Graph.spliceOut x g = .ok () g' ∧ g'.WellFormed ∧ SameNodes g g' ∧
      (∀ z, g'.predecessors z = if z = x then [] else (g.predecessors z).map (renamed x y)) ∧
      ∀ z, g'.successors z = if z = x then [] else if z = y then g.successors x
        else g.successors z := by
  have hi : (g.successors y).idxOf? x = some 0 := by simp [hsy, List.idxOf?_cons]
  simpa [hsy] using h.spliceOut_at hpx hi (apart_of_only_output h hsy hback)

/-- A node that is the only output of its only input can be removed from its place. -/
theorem WellFormed.bypass :
    ∃ c g', Graph.bypass x g = .ok c g' ∧ g.content? x = some c ∧ g'.WellFormed ∧
      g'.ids = g.ids.filter (· != x) ∧ g'.nextKey = g.nextKey ∧
      (∀ z, g'.content? z = if z = x then none else g.content? z) ∧
      (∀ z, g'.predecessors z = if z = x then [] else (g.predecessors z).map (renamed x y)) ∧
      ∀ z, g'.successors z = if z = x then [] else if z = y then g.successors x
        else g.successors z := by
  have hi : (g.successors y).idxOf? x = some 0 := by simp [hsy, List.idxOf?_cons]
  simpa [hsy] using h.bypass_at hpx hi (apart_of_only_output h hsy hback)

end OnlyOutput

/-- A node without edges can be placed on an edge. -/
theorem WellFormed.insertBetween (h : g.WellFormed) (hb : b ∈ g.successors a)
    (hx : g.contains x = true) (hpx : g.predecessors x = []) (hsx : g.successors x = [])
    (hxa : x ≠ a) (hxb : x ≠ b) :
    ∃ g', insertBetween a x b g = .ok () g' ∧ g'.WellFormed ∧ SameNodes g g' ∧
      (∀ z, g'.predecessors z = if z = x then [a]
        else if z = b then (g.predecessors b).map (renamed a x) else g.predecessors z) ∧
      ∀ z, g'.successors z = if z = x then [b]
        else if z = a then (g.successors a).map (renamed b x) else g.successors z := by
  obtain ⟨i, j, g₁, hi, hj, hd, h₁, hcut⟩ := h.exists_disconnect hb
  have hlti := lt_of_idxOf? hi
  have hltj := lt_of_idxOf? hj
  have hpx₁ : g₁.predecessors x = [] := by rw [hcut.predecessors, if_neg hxb, hpx]
  have hsx₁ : g₁.successors x = [] := by rw [hcut.successors, if_neg hxa, hsx]
  -- the edge into the node takes over the slot at `a`
  obtain ⟨g₂, hc₂, h₂, hinto⟩ := h₁.exists_connectAt (a := a) (i := i) (b := x)
    (j := (g₁.predecessors x).length) (hcut.nodes.contains.trans (contains_of_mem_successors hb))
    (hcut.nodes.contains.trans hx) (Ne.symm hxa) (by rw [h₁.edge, hpx₁]; exact List.not_mem_nil)
    (by rw [hcut.outs, List.length_eraseIdx_of_lt hlti]; omega) (Nat.le_refl _)
  have hsame₂ := hcut.nodes.trans hinto.nodes
  have hsx₂ : g₂.successors x = [] := by rw [hinto.successors, if_neg hxa, hsx₁]
  have hinb₂ : g₂.predecessors b = (g.predecessors b).eraseIdx j := by
    rw [hinto.predecessors, if_neg (Ne.symm hxb), hcut.ins]
  -- and the edge out of it the slot at `b`
  obtain ⟨g₃, hc₃, h₃, hout⟩ := h₂.exists_connectAt (a := x) (i := (g₂.successors x).length)
    (b := b) (j := j) (hsame₂.contains.trans hx) (hsame₂.contains.trans (h.target hb)) hxb
    (by rw [hsx₂]; exact List.not_mem_nil) (Nat.le_refl _)
    (by rw [hinb₂, List.length_eraseIdx_of_lt hltj]; omega)
  refine ⟨g₃, ?_, h₃, hsame₂.trans hout.nodes, fun z => ?_, fun z => ?_⟩
  · unfold Graph.insertBetween
    rw [Pass.bind_of_ok (step_eq_ok.mpr hd)]
    exact (Pass.bind_of_ok (perform_eq_ok (u := ()).mpr hc₂)).trans (perform_eq_ok.mpr hc₃)
  · rw [hout.predecessors, hinb₂, insertIdx_eraseIdx_eq_map (h.ins_nodup b) hj,
      hinto.predecessors, hpx₁, hcut.predecessors]
    by_cases hzb : z = b
    · simp [hzb, Ne.symm hxb]
    · simp [hzb]
  · rw [hout.successors, hsx₂, hinto.successors, hcut.outs,
      insertIdx_eraseIdx_eq_map (h.outs_nodup a) hi, hcut.successors]
    by_cases hza : z = a
    · simp [hza]
    · simp [hza]

/-! ## Edits undone -/

theorem idxOf?_insertIdx {β : Type} [DecidableEq β] {l : List β} {b : β} (hi : i ≤ l.length)
    (hb : b ∉ l) : (l.insertIdx i b).idxOf? b = some i := by
  have hlen := List.length_insertIdx_of_le_length hi b
  refine List.idxOf?_eq_some_iff.mpr ⟨by omega, List.getElem_insertIdx_self (by omega), ?_⟩
  intro k hk heq
  rw [List.getElem_insertIdx_of_lt hk] at heq
  exact hb (heq ▸ List.getElem_mem _)

theorem insertIdx_eraseIdx_of_idxOf? {β : Type} [DecidableEq β] {l : List β} {b : β}
    (hi : l.idxOf? b = some i) : (l.eraseIdx i).insertIdx i b = l := by
  obtain ⟨hlt, rfl, -⟩ := List.idxOf?_eq_some_iff.mp hi
  exact List.insertIdx_eraseIdx_getElem hlt

/-- What is put in the place of an entry stands where the entry stood. -/
theorem idxOf?_map_renamed {l : List NodeId} (hl : l.Nodup) (hi : l.idxOf? x = some i)
    (hy : y ∉ l) : (l.map (renamed x y)).idxOf? y = some i := by
  have hlt := lt_of_idxOf? hi
  rw [← insertIdx_eraseIdx_eq_map hl hi]
  apply idxOf?_insertIdx
  · rw [List.length_eraseIdx_of_lt hlt]
    omega
  · exact fun hm => hy (List.mem_of_mem_eraseIdx hm)

/-- Only one entry gives its place to another. -/
theorem take_cons_drop_map_renamed {l : List NodeId} (hl : l.Nodup) (hi : l.idxOf? x = some i) :
    (l.map (renamed x y)).take i ++ x :: (l.map (renamed x y)).drop (i + 1) = l := by
  obtain ⟨hlt, rfl, -⟩ := List.idxOf?_eq_some_iff.mp hi
  have hsplit : l.take i ++ l[i] :: l.drop (i + 1) = l := by
    rw [List.getElem_cons_drop, List.take_append_drop]
  have hn := hsplit ▸ hl
  have hfront : l[i] ∉ l.take i := fun hm =>
    (List.nodup_append.mp hn).2.2 _ hm _ List.mem_cons_self rfl
  have hback : l[i] ∉ l.drop (i + 1) := (List.nodup_cons.mp (List.nodup_append.mp hn).2.1).1
  rw [← List.map_take, ← List.map_drop, map_renamed_of_notMem hfront, map_renamed_of_notMem hback]
  exact hsplit

namespace WellFormed

/-- A new edge can be removed again, from the slots that were chosen for it. -/
theorem disconnect_of_connectAt (h : g.WellFormed) (hc : g.connectAt a i b j = .ok g') :
    ∃ g'', g'.disconnect a b = .ok ((i, j), g'') ∧ Unchanged g g'' := by
  have hdrawn := drawn_of_connectAt hc
  obtain ⟨⟨-, -, -, hnew, hi, hj⟩, -⟩ := connectAt_eq_ok.mp hc
  have hnew' : a ∉ g.predecessors b := fun hm => hnew ((h.edge a b).mpr hm)
  have hi' : (g'.successors a).idxOf? b = some i := by
    rw [hdrawn.outs]
    exact idxOf?_insertIdx hi hnew
  have hj' : (g'.predecessors b).idxOf? a = some j := by
    rw [hdrawn.ins]
    exact idxOf?_insertIdx hj hnew'
  have hd := disconnect_eq_ok.mpr ⟨hi', hj', rfl⟩
  have hcut := (h.connectAt hc).cut_of_disconnect hd
  refine ⟨_, hd, hdrawn.nodes.trans hcut.nodes, fun z => ?_, fun z => ?_⟩
  · rw [hcut.successors, hdrawn.outs, List.eraseIdx_insertIdx_self, hdrawn.successors]
    by_cases hz : z = a <;> simp [hz]
  · rw [hcut.predecessors, hdrawn.ins, List.eraseIdx_insertIdx_self, hdrawn.predecessors]
    by_cases hz : z = b <;> simp [hz]

/-- A removed edge can be drawn again, in the slots that it had. -/
theorem connectAt_of_disconnect (h : g.WellFormed) (hd : g.disconnect a b = .ok ((i, j), g')) :
    ∃ g'', g'.connectAt a i b j = .ok g'' ∧ Unchanged g g'' := by
  have hcut := h.cut_of_disconnect hd
  obtain ⟨hi, hj, -⟩ := disconnect_eq_ok.mp hd
  have hb : b ∈ g.successors a := mem_of_idxOf? hi
  have hlti := lt_of_idxOf? hi
  have hltj := lt_of_idxOf? hj
  have hnew : b ∉ g'.successors a := by
    rw [hcut.outs, eraseIdx_of_idxOf? hi]
    exact (h.outs_nodup a).not_mem_erase
  obtain ⟨g'', hc, -, hdrawn⟩ := (h.disconnect hd).exists_connectAt
    (hcut.nodes.contains.trans (contains_of_mem_successors hb))
    (hcut.nodes.contains.trans (h.target hb)) (h.ne_of_edge hb) hnew
    (show i ≤ _ by rw [hcut.outs, List.length_eraseIdx_of_lt hlti]; omega)
    (show j ≤ _ by rw [hcut.ins, List.length_eraseIdx_of_lt hltj]; omega)
  refine ⟨g'', hc, hcut.nodes.trans hdrawn.nodes, fun z => ?_, fun z => ?_⟩
  · rw [hdrawn.successors, hcut.outs, insertIdx_eraseIdx_of_idxOf? hi, hcut.successors]
    by_cases hz : z = a <;> simp [hz]
  · rw [hdrawn.predecessors, hcut.ins, insertIdx_eraseIdx_of_idxOf? hj, hcut.predecessors]
    by_cases hz : z = b <;> simp [hz]

/-- A node that was placed on an edge can be removed again, which gives the edge its slots back. -/
theorem bypass_of_insertBetween (h : g.WellFormed) (hb : b ∈ g.successors a)
    (hx : g.contains x = true) (hpx : g.predecessors x = []) (hsx : g.successors x = []) :
    ∃ c g₁ g₂, Graph.insertBetween a x b g = .ok () g₁ ∧ Graph.bypass x g₁ = .ok c g₂ ∧
      g.content? x = some c ∧ g₂.ids = g.ids.filter (· != x) ∧
      (∀ z, g₂.content? z = if z = x then none else g.content? z) ∧
      (∀ z, g₂.successors z = g.successors z) ∧ ∀ z, g₂.predecessors z = g.predecessors z := by
  have hxa : x ≠ a := by
    rintro rfl
    simp [hsx] at hb
  have hxb : x ≠ b := by
    rintro rfl
    have := (h.edge a x).mp hb
    simp [hpx] at this
  have hnot : ∀ z, x ∉ g.successors z ∧ x ∉ g.predecessors z := by
    intro z
    rw [h.edge, ← h.edge x, hpx, hsx]
    exact ⟨List.not_mem_nil, List.not_mem_nil⟩
  obtain ⟨i, hi⟩ := exists_idxOf? hb
  obtain ⟨g₁, hplaced, h₁, hsame, hpre₁, hsuc₁⟩ := h.insertBetween hb hx hpx hsx hxa hxb
  have hout₁ : g₁.successors a = (g.successors a).map (renamed b x) := by
    rw [hsuc₁, if_neg (Ne.symm hxa), if_pos rfl]
  have hi₁ : (g₁.successors a).idxOf? x = some i := by
    rw [hout₁]
    exact idxOf?_map_renamed (h.outs_nodup a) hi (hnot a).1
  have hapart : ∀ s ∈ g₁.successors x, s ≠ a ∧ s ∉ g₁.successors a := by
    rw [hsuc₁, if_pos rfl, hout₁]
    intro s hs
    obtain rfl := List.mem_singleton.mp hs
    refine ⟨Ne.symm (h.ne_of_edge hb), fun hm => ?_⟩
    exact (mem_of_mem_map_renamed hm (Ne.symm hxb)).2 rfl
  obtain ⟨c, g₂, hremoved, hc, -, hids, -, hcont, hpre, hsuc⟩ :=
    h₁.bypass_at (by rw [hpre₁, if_pos rfl]) hi₁ hapart
  refine ⟨c, g₁, g₂, hplaced, hremoved, ?_, ?_, fun z => ?_, fun z => ?_, fun z => ?_⟩
  · rw [← hsame.content?, hc]
  · rw [hids, hsame.ids]
  · rw [hcont, hsame.content?]
  · rw [hsuc, hsuc₁ x, if_pos rfl, hout₁, hsuc₁, List.append_assoc, List.singleton_append,
      take_cons_drop_map_renamed (h.outs_nodup a) hi]
    by_cases hzx : z = x
    · rw [if_pos hzx, hzx, hsx]
    · rw [if_neg hzx, if_neg hzx]
      by_cases hza : z = a
      · rw [if_pos hza, hza]
      · rw [if_neg hza, if_neg hza]
  · rw [hpre, hpre₁]
    by_cases hzx : z = x
    · rw [if_pos hzx, hzx, hpx]
    · rw [if_neg hzx, if_neg hzx]
      by_cases hzb : z = b
      · rw [if_pos hzb, hzb, map_renamed_back (hnot b).2]
      · rw [if_neg hzb, map_renamed_of_notMem (hnot z).2]

end WellFormed

/-- Drawing an edge and removing it undo each other, and so do placing a node on an edge and
removing it: what stood in a slot stands there again. -/
theorem edits_undone (h : g.WellFormed) :
    (∀ a i b j g₁, g.connectAt a i b j = .ok g₁ →
      ∃ g₂, g₁.disconnect a b = .ok ((i, j), g₂) ∧ Unchanged g g₂) ∧
    (∀ a b i j g₁, g.disconnect a b = .ok ((i, j), g₁) →
      ∃ g₂, g₁.connectAt a i b j = .ok g₂ ∧ Unchanged g g₂) ∧
    ∀ a x b, b ∈ g.successors a → g.contains x = true → g.predecessors x = [] →
      g.successors x = [] →
      ∃ c g₁ g₂, insertBetween a x b g = .ok () g₁ ∧ bypass x g₁ = .ok c g₂ ∧
        g.content? x = some c ∧ g₂.ids = g.ids.filter (· != x) ∧
        (∀ z, g₂.content? z = if z = x then none else g.content? z) ∧
        (∀ z, g₂.successors z = g.successors z) ∧ ∀ z, g₂.predecessors z = g.predecessors z := by
  refine ⟨fun a i b j g₁ hc => ?_, fun a b i j g₁ hd => ?_, fun a x b hb hx hpx hsx => ?_⟩
  · exact h.disconnect_of_connectAt hc
  · exact h.connectAt_of_disconnect hd
  · exact h.bypass_of_insertBetween hb hx hpx hsx

/-- The edge from `p` to `s` is between two others at both of its ends; `x` has no edges. -/
def crossroads : Graph String :=
  let nodes := ["p", "s", "u", "v", "x"].foldl (fun g c => (g.add c).2) empty
  [(0, 2), (2, 1), (0, 1), (0, 3), (3, 1)].foldl
    (fun g (a, b) => (g.connect ⟨a⟩ ⟨b⟩).toOption.getD g) nodes

theorem crossroads_restored : crossroads.WellFormed ∧
    (∃ g₁ g₂, crossroads.connectAt ⟨2⟩ 0 ⟨3⟩ 1 = .ok g₁ ∧
      g₁.disconnect ⟨2⟩ ⟨3⟩ = .ok ((0, 1), g₂) ∧ Unchanged crossroads g₂) ∧
    (∃ g₁ g₂, crossroads.disconnect ⟨0⟩ ⟨1⟩ = .ok ((1, 1), g₁) ∧
      g₁.connectAt ⟨0⟩ 1 ⟨1⟩ 1 = .ok g₂ ∧ Unchanged crossroads g₂) ∧
    ∃ g₁ g₂, insertBetween ⟨0⟩ ⟨4⟩ ⟨1⟩ crossroads = .ok () g₁ ∧ bypass ⟨4⟩ g₁ = .ok "x" g₂ ∧
      g₂.successors ⟨0⟩ = [⟨2⟩, ⟨1⟩, ⟨3⟩] ∧ g₂.predecessors ⟨1⟩ = [⟨2⟩, ⟨0⟩, ⟨3⟩] := by
  have hwf : crossroads.WellFormed := by decide +kernel
  have hdrawn : crossroads.connectAt ⟨2⟩ 0 ⟨3⟩ 1 = .ok (crossroads.link ⟨2⟩ 0 ⟨3⟩ 1) :=
    connectAt_eq_ok.mpr ⟨by decide +kernel, rfl⟩
  have hcut : crossroads.disconnect ⟨0⟩ ⟨1⟩ = .ok ((1, 1), crossroads.unlink ⟨0⟩ 1 ⟨1⟩ 1) :=
    disconnect_eq_ok.mpr ⟨by decide +kernel, by decide +kernel, rfl⟩
  obtain ⟨hconnect, hdisconnect, hplace⟩ := edits_undone hwf
  obtain ⟨g₁, hg₁⟩ := hconnect _ _ _ _ _ hdrawn
  obtain ⟨g₂, hg₂⟩ := hdisconnect _ _ _ _ _ hcut
  obtain ⟨c, g₃, g₄, hplaced, hremoved, hc, -, -, hsuc, hpre⟩ := hplace ⟨0⟩ ⟨4⟩ ⟨1⟩
    (by decide +kernel) (by decide +kernel) (by decide +kernel) (by decide +kernel)
  have hx : crossroads.content? ⟨4⟩ = some "x" := by decide +kernel
  obtain rfl : c = "x" := Option.some.inj (hc.symm.trans hx)
  refine ⟨hwf, ⟨_, g₁, hdrawn, hg₁⟩, ⟨_, g₂, hcut, hg₂⟩, g₃, g₄, hplaced, hremoved, ?_, ?_⟩
  · rw [hsuc]
    decide +kernel
  · rw [hpre]
    decide +kernel

end Dataflow.Graph

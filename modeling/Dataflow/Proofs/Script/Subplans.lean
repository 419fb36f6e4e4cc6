import Dataflow.Proofs.Plan.Clone
import Dataflow.Proofs.Plan.Edit
import Dataflow.Proofs.Script.Sessions

/-!
# The part of a plan that a name stands for

For a name a session copies its plan and cuts out one by one the operators from which no path leads
to the one that the name means. Cutting an operator out takes its edges away, and the operator
itself (`CutOut`); all that is forgotten meanwhile was derived behind it. So the operators that are
left, and what was derived for them, are not touched, and the copy mirrors all that the operator
depends on (`planFor_exact`).
-/

namespace Dataflow

open Dataflow.Graph

namespace Plan

variable {p q r : Plan} {K : NodeId → Prop} {a b x y z id target : NodeId}
  {es fs : List (NodeId × NodeId)} {gone more : List NodeId}

/-! ## Taking edges away -/

/-- `q` is `p` without the listed edges. Operators in `K` have kept what was derived for them. -/
structure Unlinked (K : NodeId → Prop) (es : List (NodeId × NodeId)) (p q : Plan) : Prop where
  wellFormed : q.graph.WellFormed
  ids : q.graph.ids = p.graph.ids
  uids : q.uids = p.uids
  kept : ∀ x, K x → q.operator? x = p.operator? x
  successors : ∀ x, q.graph.successors x = (p.graph.successors x).filter fun y => (x, y) ∉ es
  predecessors : ∀ y, q.graph.predecessors y = (p.graph.predecessors y).filter fun x => (x, y) ∉ es

/-- No edge leads into `K`. -/
def Above (K : NodeId → Prop) (p : Plan) : Prop :=
  ∀ x, ¬ K x → ∀ y ∈ p.graph.successors x, ¬ K y

theorem Unlinked.above (h : Unlinked K es p q) (hK : Above K p) : Above K q := by
  intro x hx y hy
  rw [h.successors] at hy
  exact hK x hx y (List.mem_of_mem_filter hy)

theorem Unlinked.trans (h : Unlinked K es p q) (h' : Unlinked K fs q r) :
    Unlinked K (es ++ fs) p r where
  wellFormed := h'.wellFormed
  ids := h'.ids.trans h.ids
  uids := h'.uids.trans h.uids
  kept x hx := (h'.kept x hx).trans (h.kept x hx)
  successors x := by
    rw [h'.successors, h.successors, List.filter_filter]
    exact List.filter_congr fun y _ => by simp [Bool.and_comm]
  predecessors y := by
    rw [h'.predecessors, h.predecessors, List.filter_filter]
    exact List.filter_congr fun x _ => by simp [Bool.and_comm]

theorem disconnect_unlinked (hp : p.graph.WellFormed) (hK : Above K p)
    (hab : b ∈ p.graph.successors a) (hb : ¬ K b) :
    ∃ slots q, Plan.disconnect a b p = .ok slots q ∧ Unlinked K [(a, b)] p q := by
  obtain ⟨i, j, g, hi, hj, hrun, hwf, hcut⟩ := hp.exists_disconnect hab
  have hsuc : ∀ x, g.successors x = (p.graph.successors x).filter fun y => (x, y) ∉ [(a, b)] := by
    intro x
    rw [hcut.successors, eraseIdx_of_idxOf? hi, (hp.outs_nodup a).erase_eq_filter]
    split
    · rename_i hx
      subst hx
      exact List.filter_congr fun y _ => Bool.eq_iff_iff.mpr (by simp)
    · rename_i hx
      exact (List.filter_eq_self.mpr fun y _ => by simp [hx]).symm
  have hpre : ∀ y, g.predecessors y =
      (p.graph.predecessors y).filter fun x => (x, y) ∉ [(a, b)] := by
    intro y
    rw [hcut.predecessors, eraseIdx_of_idxOf? hj, (hp.ins_nodup b).erase_eq_filter]
    split
    · rename_i hy
      subst hy
      exact List.filter_congr fun x _ => Bool.eq_iff_iff.mpr (by simp)
    · rename_i hy
      exact (List.filter_eq_self.mpr fun x _ => by simp [hy]).symm
  have halike : Alike { p with graph := g } (Plan.invalidate { p with graph := g } b) :=
    Alike.invalidate
  refine ⟨(i, j), _, ?_, halike.wellFormed hwf, halike.ids.trans hcut.nodes.ids, rfl,
    fun x hx => ?_, fun x => (halike.successors x).trans (hsuc x),
    fun y => (halike.predecessors y).trans (hpre y)⟩
  · unfold Plan.disconnect
    rw [Pass.bind_of_ok (onGraph_eq_ok.mpr ⟨g, step_eq_ok.mpr hrun, rfl⟩),
      Pass.bind_of_ok Pass.modify_apply]
    rfl
  · -- what is forgotten lies behind the edge
    have hbehind : ∀ z ∈ g.descendants b, ¬ K z := by
      refine descendants_subset hb fun z hz y hy => ?_
      rw [hsuc] at hy
      exact hK z hz y (List.mem_of_mem_filter hy)
    have hforget : (forgetAt { p with graph := g } (g.descendants b)).operator? x = _ :=
      operator?_forgetAt
    rw [if_neg fun hmem => hbehind x hmem hx] at hforget
    exact hforget.trans (hcut.nodes.content? x)

/-- The edges are taken away one after another. -/
theorem forM_disconnect (edge : NodeId → NodeId × NodeId) : ∀ {l : List NodeId} {p : Plan},
    p.graph.WellFormed → Above K p → (l.map edge).Nodup →
    (∀ z ∈ l, (edge z).2 ∈ p.graph.successors (edge z).1 ∧ ¬ K (edge z).2) →
    ∃ q, l.forM (fun z => discard (Plan.disconnect (edge z).1 (edge z).2)) p = .ok () q ∧
      Unlinked K (l.map edge) p q
  | [], p, hp, _, _, _ => by
    refine ⟨p, rfl, hp, rfl, rfl, fun _ _ => rfl, fun x => ?_, fun y => ?_⟩
    · simp
    · simp
  | z :: l, p, hp, hK, hn, hl => by
    obtain ⟨hz, hn⟩ := List.nodup_cons.mp hn
    obtain ⟨hedge, hout⟩ := hl z (by simp)
    obtain ⟨slots, p₁, hrun₁, h₁⟩ := disconnect_unlinked hp hK hedge hout
    obtain ⟨q, hrun, h⟩ := forM_disconnect edge h₁.wellFormed (h₁.above hK) hn fun v hv => by
      obtain ⟨hedge', hout'⟩ := hl v (List.mem_cons_of_mem z hv)
      refine ⟨?_, hout'⟩
      rw [h₁.successors]
      refine List.mem_filter.mpr ⟨hedge', ?_⟩
      have hne : edge v ≠ edge z := fun heq => hz (heq ▸ List.mem_map_of_mem hv)
      simpa using hne
    refine ⟨q, ?_, h₁.trans h⟩
    have hhead : discard (Plan.disconnect (edge z).1 (edge z).2) p = .ok () p₁ :=
      Pass.discard_eq_ok.mpr ⟨slots, hrun₁⟩
    rw [Pass.forM_cons]
    exact (Pass.bind_of_ok hhead).trans hrun

/-! ## Cutting operators out -/

/-- `q` is `p` without the operators in `gone`. Operators in `K` have kept what was derived for
them. -/
structure CutOut (K : NodeId → Prop) (gone : List NodeId) (p q : Plan) : Prop where
  wellFormed : q.graph.WellFormed
  ids : q.graph.ids = p.graph.ids.filter (· ∉ gone)
  uids : q.uids = p.uids
  kept : ∀ x, K x → q.operator? x = p.operator? x
  successors : ∀ x, x ∉ gone → q.graph.successors x = (p.graph.successors x).filter (· ∉ gone)
  predecessors : ∀ y, y ∉ gone → q.graph.predecessors y = (p.graph.predecessors y).filter (· ∉ gone)

namespace CutOut

theorem contains_iff (h : CutOut K gone p q) (hp : p.graph.WellFormed) :
    q.graph.contains x = true ↔ p.graph.contains x = true ∧ x ∉ gone := by
  rw [← h.wellFormed.mem_ids, h.ids, List.mem_filter, hp.mem_ids]
  simp

theorem successors_subset (h : CutOut K gone p q) (hp : p.graph.WellFormed) :
    ∀ y ∈ q.graph.successors x, y ∈ p.graph.successors x := by
  intro y hy
  have hx := ((h.contains_iff hp).mp (contains_of_mem_successors hy)).2
  rw [h.successors x hx] at hy
  exact List.mem_of_mem_filter hy

theorem trans (h : CutOut K gone p q) (h' : CutOut K more q r) : CutOut K (gone ++ more) p r where
  wellFormed := h'.wellFormed
  ids := by
    rw [h'.ids, h.ids, List.filter_filter]
    exact List.filter_congr fun x _ => by simp [Bool.and_comm]
  uids := h'.uids.trans h.uids
  kept x hx := (h'.kept x hx).trans (h.kept x hx)
  successors x hx := by
    obtain ⟨hx, hx'⟩ := not_or.mp (mt List.mem_append.mpr hx)
    rw [h'.successors x hx', h.successors x hx, List.filter_filter]
    exact List.filter_congr fun y _ => by simp [Bool.and_comm]
  predecessors y hy := by
    obtain ⟨hy, hy'⟩ := not_or.mp (mt List.mem_append.mpr hy)
    rw [h'.predecessors y hy', h.predecessors y hy, List.filter_filter]
    exact List.filter_congr fun x _ => by simp [Bool.and_comm]

end CutOut

/-- All edges of an operator that is not in `K` are taken away, first those from its inputs. -/
theorem isolate_spec (hp : p.graph.WellFormed) (hK : Above K p) (hout : ¬ K id) : ∃ p₁ q es,
    (p.predecessors id).forM (fun x => discard (Plan.disconnect x id)) p = .ok () p₁ ∧
      (p₁.successors id).forM (fun y => discard (Plan.disconnect id y)) p₁ = .ok () q ∧
      Unlinked K es p q ∧
      ∀ x y, y ∈ p.graph.successors x → ((x, y) ∈ es ↔ x = id ∨ y = id) := by
  obtain ⟨p₁, hrun₁, h₁⟩ := forM_disconnect (K := K) (fun x => (x, id))
    (l := p.graph.predecessors id) hp hK
    ((hp.ins_nodup id).map fun x y heq => (Prod.mk.inj heq).1)
    fun x hx => ⟨(hp.edge x id).mpr hx, hout⟩
  obtain ⟨q, hrun₂, h₂⟩ := forM_disconnect (K := K) (fun y => (id, y))
    (l := p₁.graph.successors id) h₁.wellFormed (h₁.above hK)
    ((h₁.wellFormed.outs_nodup id).map fun x y heq => (Prod.mk.inj heq).2)
    fun y hy => ⟨hy, h₁.above hK id hout y hy⟩
  refine ⟨p₁, q, _, hrun₁, hrun₂, h₁.trans h₂, fun x y hy => ?_⟩
  rw [List.mem_append, List.mem_map, List.mem_map]
  constructor
  · rintro (⟨z, -, heq⟩ | ⟨z, -, heq⟩)
    · exact .inr (Prod.mk.inj heq).2.symm
    · exact .inl (Prod.mk.inj heq).1.symm
  · intro heq
    -- an edge from `id` to itself would be among the first ones
    by_cases hyid : y = id
    · exact .inl ⟨x, hyid ▸ (hp.edge x y).mp hy, by rw [hyid]⟩
    · obtain rfl := heq.resolve_right hyid
      refine .inr ⟨y, ?_, rfl⟩
      rw [h₁.successors]
      refine List.mem_filter.mpr ⟨hy, decide_eq_true fun hmem => ?_⟩
      obtain ⟨z, -, heq⟩ := List.mem_map.mp hmem
      exact hyid (Prod.mk.inj heq).2.symm

/-- An operator that is not in `K` is cut out. -/
theorem cutOut_spec (hp : p.graph.WellFormed) (hK : Above K p) (hid : p.graph.contains id = true)
    (hout : ¬ K id) : ∃ q, Session.cutOut id p = .ok () q ∧ CutOut K [id] p q := by
  obtain ⟨p₁, p₂, es, hrun₁, hrun₂, h, hes⟩ := isolate_spec hp hK hout
  have hins : p₂.graph.predecessors id = [] := by
    rw [h.predecessors, List.filter_eq_nil_iff]
    intro x hx
    simp [(hes x id ((hp.edge x id).mpr hx)).mpr (.inr rfl)]
  have houts : p₂.graph.successors id = [] := by
    rw [h.successors, List.filter_eq_nil_iff]
    intro y hy
    simp [(hes id y hy).mpr (.inl rfl)]
  have hid₂ : p₂.graph.contains id = true := by
    rw [← h.wellFormed.mem_ids, h.ids, hp.mem_ids]
    exact hid
  obtain ⟨op, hop⟩ := exists_content? hid₂
  have hrun₃ : Plan.remove id p₂ = .ok op { p₂ with graph := p₂.graph.erased id } :=
    onGraph_eq_ok.mpr ⟨_, step_eq_ok.mpr (remove_eq_ok.mpr ⟨hop, hins, houts, rfl⟩), rfl⟩
  have hne : ∀ {x}, x ∉ [id] → x ≠ id := fun hx heq => hx (by simp [heq])
  refine ⟨{ p₂ with graph := p₂.graph.erased id }, ?_, h.wellFormed.erased hins houts, ?_, h.uids,
    fun x hx => ?_, fun x hx => ?_, fun y hy => ?_⟩
  · unfold Session.cutOut
    rw [Pass.bind_of_ok Pass.get_apply, Pass.bind_of_ok hrun₁, Pass.bind_of_ok Pass.get_apply,
      Pass.bind_of_ok hrun₂]
    exact Pass.discard_eq_ok.mpr ⟨op, hrun₃⟩
  · change p₂.graph.ids.filter (· != id) = _
    rw [h.ids]
    exact List.filter_congr fun x _ => Bool.eq_iff_iff.mpr (by simp)
  · have hxid : x ≠ id := by rintro rfl; exact hout hx
    refine Eq.trans ?_ (h.kept x hx)
    exact (content?_erased p₂.graph id).trans (if_neg hxid)
  · refine ((successors_erased p₂.graph id).trans (if_neg (hne hx))).trans ?_
    rw [h.successors]
    refine List.filter_congr fun y hy => Bool.eq_iff_iff.mpr ?_
    rw [decide_eq_true_iff, hes x y hy]
    simp [hne hx]
  · refine ((predecessors_erased p₂.graph id).trans (if_neg (hne hy))).trans ?_
    rw [h.predecessors]
    refine List.filter_congr fun x hx => Bool.eq_iff_iff.mpr ?_
    rw [decide_eq_true_iff, hes x y ((hp.edge x y).mpr hx)]
    simp [hne hy]

/-- Operators that are not in `K` are cut out one after another. -/
theorem forM_cutOut : ∀ {gone : List NodeId} {p : Plan}, p.graph.WellFormed → Above K p →
    gone.Nodup → (∀ x ∈ gone, p.graph.contains x = true ∧ ¬ K x) →
    ∃ q, gone.forM Session.cutOut p = .ok () q ∧ CutOut K gone p q
  | [], p, hp, _, _, _ => by
    refine ⟨p, rfl, hp, ?_, rfl, fun _ _ => rfl, fun x _ => ?_, fun y _ => ?_⟩
    all_goals simp
  | id :: gone, p, hp, hK, hn, hgone => by
    obtain ⟨hid, hn⟩ := List.nodup_cons.mp hn
    obtain ⟨hcontains, hout⟩ := hgone id (by simp)
    obtain ⟨p₁, hrun₁, h₁⟩ := cutOut_spec hp hK hcontains hout
    have hK₁ : Above K p₁ := fun x hx y hy => hK x hx y (h₁.successors_subset hp y hy)
    obtain ⟨q, hrun, h⟩ := forM_cutOut h₁.wellFormed hK₁ hn fun x hx => by
      obtain ⟨hcx, hKx⟩ := hgone x (List.mem_cons_of_mem id hx)
      refine ⟨(h₁.contains_iff hp).mpr ⟨hcx, ?_⟩, hKx⟩
      rw [List.mem_singleton]
      rintro rfl
      exact hid hx
    refine ⟨q, ?_, h₁.trans h⟩
    rw [Pass.forM_cons]
    exact (Pass.bind_of_ok hrun₁).trans hrun

/-- `q` has the operators of `p` from which a path leads to `target`, and nothing else. -/
structure Ancestry (target : NodeId) (p q : Plan) : Prop where
  wellFormed : q.graph.WellFormed
  ids : q.graph.ids = p.graph.ids.filter (p.graph.reaches · target)
  uids : q.uids = p.uids
  kept : ∀ x, p.graph.reaches x target = true → q.operator? x = p.operator? x
  successors : ∀ x, p.graph.reaches x target = true →
    q.graph.successors x = (p.graph.successors x).filter (p.graph.reaches · target)
  predecessors : ∀ y, p.graph.reaches y target = true →
    q.graph.predecessors y = p.graph.predecessors y

/-- Whatever does not lead to the operator is cut out. -/
theorem onlyAncestors_spec (hp : p.graph.WellFormed) (hac : p.graph.Acyclic)
    (htarget : p.graph.contains target = true) :
    ∃ q, Session.onlyAncestors target p = .ok () q ∧ Ancestry target p q := by
  obtain ⟨order, horder⟩ := exists_topologicalOrder hp hac
  obtain ⟨hn, hmem, -⟩ := topologicalOrder_spec hp horder
  let K (x : NodeId) : Prop := p.graph.reaches x target = true
  have hkept : ∀ x, x ∈ p.graph.ancestors target ↔ K x := fun x => mem_ancestors_iff hp htarget
  have hK : Above K p := fun x hx y hy hKy =>
    hx (reaches_trans (reaches_of_edge reaches_self hy) hKy)
  -- the order does not matter: all that is cut out lies apart from what is kept
  let gone := order.reverse.filter (!(p.graph.ancestors target).contains ·)
  have hgone : ∀ x, p.graph.contains x = true → (x ∉ gone ↔ K x) := by
    intro x hx
    simp [gone, (hmem x).mpr hx, hkept]
  have hout : ∀ x ∈ gone, p.graph.contains x = true ∧ ¬ K x := by
    intro x hx
    have hcx := (hmem x).mp (List.mem_reverse.mp (List.mem_of_mem_filter hx))
    exact ⟨hcx, fun hKx => (hgone x hcx).mpr hKx hx⟩
  obtain ⟨q, hrun, h⟩ := forM_cutOut hp hK ((List.nodup_reverse.mpr hn).filter _) hout
  have hin : ∀ {x}, K x → x ∉ gone := fun hx =>
    (hgone _ (contains_of_reaches hp hx htarget)).mpr hx
  have hfilter : ∀ l : List NodeId, (∀ x ∈ l, p.graph.contains x = true) →
      l.filter (· ∉ gone) = l.filter (p.graph.reaches · target) := by
    intro l hl
    refine List.filter_congr fun x hx => Bool.eq_iff_iff.mpr ?_
    rw [decide_eq_true_iff]
    exact hgone x (hl x hx)
  refine ⟨q, ?_, h.wellFormed, ?_, h.uids, h.kept, fun x hx => ?_, fun y hy => ?_⟩
  · have hreverse : Graph.orError p.graph.reverseTopologicalOrder = .ok order.reverse := by
      rw [reverseTopologicalOrder, horder]
      rfl
    unfold Session.onlyAncestors
    rw [Pass.bind_of_ok Pass.get_apply, Pass.bind_of_ok (ofResult_eq_ok.mpr ⟨hreverse, rfl⟩)]
    exact hrun
  · rw [h.ids, hfilter _ fun x hx => hp.contains_of_mem hx]
  · rw [h.successors x (hin hx), hfilter _ fun y hy => hp.target hy]
  · -- inputs of what is kept are kept
    rw [h.predecessors y (hin hy), List.filter_eq_self]
    intro x hx
    exact decide_eq_true (hin (reaches_trans
      (reaches_of_edge reaches_self ((hp.edge x y).mpr hx)) hy))

theorem Ancestry.acyclic (h : Ancestry target p q) (hac : p.graph.Acyclic) : q.graph.Acyclic := by
  refine hac.of_subset fun x y hy => ?_
  have hx := (h.wellFormed.mem_ids x).mpr (contains_of_mem_successors hy)
  rw [h.ids] at hx
  rw [h.successors x (List.mem_filter.mp hx).2] at hy
  exact List.mem_of_mem_filter hy

theorem acyclic_of_validate (hp : p.graph.WellFormed) (hok : p.validate = .ok ()) :
    p.graph.Acyclic := by
  unfold Plan.validate at hok
  rw [Pass.except_bind_unit_eq_ok, Pass.except_bind_unit_eq_ok] at hok
  apply (exists_topologicalOrder_iff hp).mp
  cases horder : p.graph.topologicalOrder with
  | ok order => exact ⟨order, rfl⟩
  | error e =>
    have hcycle := hok.2.1
    rw [horder] at hcycle
    cases hcycle

/-! ## The copy of a part -/

/-- `φ` renames the operators of `p` from which a path leads to `target` to those of `q`, in the
order in which they were added. Their inputs are all there, and of their outputs those that are
renamed, in the same order. -/
structure Subplan (φ : NodeId → NodeId) (target : NodeId) (p q : Plan) : Prop where
  mirrors : Mirrors φ (fun x => p.graph.reaches x target = true) p q
  ids : q.graph.ids = (p.graph.ids.filter (p.graph.reaches · target)).map φ
  successors : ∀ x, p.graph.reaches x target = true → q.graph.successors (φ x) =
    ((p.graph.successors x).filter (p.graph.reaches · target)).map φ

theorem Ancestry.subplan {φ : NodeId → NodeId} (h : Ancestry (φ target) q r) (htwins : Twins φ p q)
    (htarget : p.graph.contains target = true) : Subplan φ target p r := by
  have hp := htwins.wellFormed
  have hreaches : ∀ x, p.graph.contains x = true →
      q.graph.reaches (φ x) (φ target) = p.graph.reaches x target := fun x hx =>
    Bool.eq_iff_iff.mpr (htwins.graph.reaches_iff hp hx htarget)
  have hcontains : ∀ x, p.graph.reaches x target = true → p.graph.contains x = true :=
    fun x hx => contains_of_reaches hp hx htarget
  have hfilter : ∀ l : List NodeId, (∀ x ∈ l, p.graph.contains x = true) →
      (l.map φ).filter (q.graph.reaches · (φ target)) =
        (l.filter (p.graph.reaches · target)).map φ := by
    intro l hl
    rw [List.filter_map]
    exact congrArg (List.map φ) (List.filter_congr fun x hx => hreaches x (hl x hx))
  refine ⟨⟨hp, hcontains, fun x hx y hy => ?_, fun x y hx hy => ?_, fun x hx => ?_, fun x hx => ?_,
    h.uids.trans htwins.uids⟩, ?_, fun x hx => ?_⟩
  · exact reaches_trans (reaches_of_edge reaches_self ((hp.edge y x).mpr hy)) hx
  · exact htwins.graph.inj (hcontains x hx) (hcontains y hy)
  · have hx' := hcontains x hx
    exact (h.kept _ ((hreaches x hx').trans hx)).trans (htwins.operator?_eq hx')
  · have hx' := hcontains x hx
    rw [h.predecessors _ ((hreaches x hx').trans hx), htwins.graph.predecessors x hx']
  · rw [h.ids, htwins.graph.ids, hfilter _ fun x hx => hp.contains_of_mem hx]
  · have hx' := hcontains x hx
    rw [h.successors _ ((hreaches x hx').trans hx), htwins.graph.successors x hx',
      hfilter _ fun y hy => hp.target hy]

namespace Subplan

variable {φ : NodeId → NodeId} {op : Operator} (h : Subplan φ target p q)

include h

/-- Every operator of the copy is that of some operator that leads to the target. -/
theorem exists_of_operator? (hq : q.graph.WellFormed) (hop : q.operator? y = some op) :
    ∃ x, p.graph.reaches x target = true ∧ φ x = y ∧ p.operator? x = some op := by
  have hy := (hq.mem_ids y).mpr (contains_of_operator? hop)
  rw [h.ids] at hy
  obtain ⟨x, hx, rfl⟩ := List.mem_map.mp hy
  have hx := (List.mem_filter.mp hx).2
  exact ⟨x, hx, rfl, (h.mirrors.operator x hx).symm.trans hop⟩

theorem hasType {t : OperatorType} (hx : p.graph.reaches x target = true) (ht : p.HasType x t) :
    q.HasType (φ x) t := by
  obtain ⟨op, hop, htype⟩ := ht
  exact ⟨op, (h.mirrors.operator x hx).trans hop, htype⟩

/-- An operator that passes its check passes it in the part as well. -/
theorem checkOperator (hx : p.graph.reaches x target = true)
    (hok : p.checkOperator x op = .ok ()) : q.checkOperator (φ x) op = .ok () := by
  have hpre : q.predecessors (φ x) = (p.predecessors x).map φ := h.mirrors.predecessors x hx
  have hlength : (q.predecessors (φ x)).length = (p.predecessors x).length := by
    rw [hpre, List.length_map]
  have hload : p.checkLoadInputs op (p.predecessors x) = .ok () →
      q.checkLoadInputs op (q.predecessors (φ x)) = .ok () := by
    rw [checkLoadInputs_eq_ok, checkLoadInputs_eq_ok]
    intro hstores y hy
    rw [hpre] at hy
    obtain ⟨z, hz, rfl⟩ := List.mem_map.mp hy
    exact h.hasType (h.mirrors.closed x hx z hz) (hstores z hz)
  have hstore : p.checkStoreOutputs op (p.successors x) = .ok () →
      q.checkStoreOutputs op (q.successors (φ x)) = .ok () := by
    rw [checkStoreOutputs_eq_ok, checkStoreOutputs_eq_ok]
    intro hloads y hy
    rw [show q.successors (φ x) = _ from h.successors x hx] at hy
    obtain ⟨z, hz, rfl⟩ := List.mem_map.mp hy
    obtain ⟨hz, hzt⟩ := List.mem_filter.mp hz
    exact h.hasType hzt (hloads z hz)
  unfold Plan.checkOperator at hok ⊢
  dsimp only at hok ⊢
  rw [hlength]
  split at hok
  · rename_i htype
    rw [if_pos htype]
    exact hload hok
  rename_i htype
  rw [if_neg htype]
  -- the numbers of inputs are those of the whole plan
  split at hok
  · cases hok
  rename_i hmin
  rw [if_neg hmin]
  split at hok
  · cases hok
  rename_i hmany
  rw [if_neg hmany]
  split at hok
  · rename_i htype
    rw [if_pos htype]
    rw [Pass.except_bind_unit_eq_ok] at hok ⊢
    exact ⟨hstore hok.1, hok.2⟩
  · rename_i htype
    rw [if_neg htype]
    exact hok

/-- A part of a plan passes the check that the whole plan passes. -/
theorem validate (hq : q.graph.WellFormed) (hac : q.graph.Acyclic)
    (hok : p.validate = .ok ()) : q.validate = .ok () := by
  unfold Plan.validate at hok ⊢
  rw [Pass.except_bind_unit_eq_ok, Pass.except_bind_unit_eq_ok, checkOperators_eq_ok] at hok ⊢
  obtain ⟨order, horder⟩ := exists_topologicalOrder hq hac
  refine ⟨orError_eq_ok.mpr hq.checkConsistency, ?_, fun y op hm => ?_⟩
  · rw [horder]
    rfl
  · obtain ⟨x, hx, rfl, hop⟩ := h.exists_of_operator? hq (hq.mem_toList_iff.mp hm)
    exact h.checkOperator hx (hok.2.2 x op (h.mirrors.wellFormed.mem_toList_iff.mpr hop))

end Subplan

end Plan

namespace Session

open Plan

variable {s : Session} {name : String} {id : NodeId}

/-- A name means an operator of the plan. -/
theorem contains_node (hs : s.plan.graph.WellFormed) (h : s.node name = .ok id) :
    s.plan.graph.contains id = true := by
  unfold node Draft.node Draft.lookup at h
  split at h
  · rename_i key hkey
    obtain rfl := Except.ok.inj h
    obtain ⟨bound, -, hcurrent⟩ := Option.bind_eq_some_iff.mp hkey
    unfold Draft.current? at hcurrent
    split at hcurrent
    · rename_i hbound
      exact Option.some.inj hcurrent ▸ hbound
    · -- the operator that has the name now
      obtain ⟨⟨found, op⟩, hlast, rfl⟩ := Option.map_eq_some_iff.mp hcurrent
      have hmem := List.mem_of_mem_filter (List.mem_of_getLast? hlast)
      exact contains_of_operator? (hs.mem_toList_iff.mp hmem)
  · cases h

/-- A plan for a name is a copy of that part of the session's plan on which the operator depends
that the name means, be it over a store. It is valid, and a request for the schema of that operator
ends as it does in the session's plan. The session is only read. -/
theorem planFor_exact (hs : s.plan.graph.WellFormed) (hkeys : s.plan.graph.KeysBelow)
    (hvalid : s.plan.validate = .ok ()) (hname : s.node name = .ok id) :
    ∃ q φ, s.planFor name = .ok q ∧ q.validate = .ok () ∧ Subplan φ id s.plan q ∧
      Pass.EndsTogether (Mirrors φ fun x => s.plan.graph.reaches x id = true)
        (Plan.schema id s.plan) (Plan.schema (φ id) q) := by
  have hacyclic := acyclic_of_validate hs hvalid
  have hid := contains_node hs hname
  obtain ⟨names, copy, φ, hclone, hnames, hexact, -⟩ := clone_spec hs hkeys
  have htwins : Twins φ s.plan { s.plan with graph := copy } := ⟨hs, hexact, rfl⟩
  have hac := hexact.acyclic hs hacyclic
  obtain ⟨q, hrun, h⟩ := onlyAncestors_spec (p := { s.plan with graph := copy })
    (hexact.wellFormed hs) hac (hexact.contains hid)
  have hsub := h.subplan htwins hid
  refine ⟨q, φ, ?_, ?_, hsub, hsub.mirrors.schema hacyclic reaches_self⟩
  · have htarget : renamed names id = .ok (φ id) := by
      rw [renamed, hnames, if_pos hid]
    unfold planFor
    rw [hname, Pass.except_ok_bind, clone_eq_ok hclone, Pass.except_ok_bind]
    dsimp only
    rw [htarget, Pass.except_ok_bind, hrun]
    rfl
  · exact hsub.validate h.wellFormed (h.acyclic hac) hvalid

/-- `B` is read from where `A` is stored, and nothing waits for `C`. -/
def storedThenLoaded : Session := Step.runAll
  [.register (.load "A" "/in" none), .register (.load "C" "/else" none),
    .register (.cross "X" ["A", "C"]), .register (.store "A" "/out"),
    .register (.load "B" "/out" none), .compileBatch] { directory := "/" }

theorem storedThenLoaded_planFor : storedThenLoaded.node "B" = .ok ⟨4⟩ ∧
    ∃ q φ, storedThenLoaded.planFor "B" = .ok q ∧ q.validate = .ok () ∧
      Subplan φ ⟨4⟩ storedThenLoaded.plan q ∧ q.graph.ids = [φ ⟨0⟩, φ ⟨3⟩, φ ⟨4⟩] := by
  have hname : storedThenLoaded.node "B" = .ok ⟨4⟩ := by decide +kernel
  obtain ⟨q, φ, hrun, hvalid, hsub, -⟩ := planFor_exact (by decide +kernel) (by decide +kernel)
    (by decide +kernel) hname
  refine ⟨hname, q, φ, hrun, hvalid, hsub, ?_⟩
  have hkept : storedThenLoaded.plan.graph.ids.filter (storedThenLoaded.plan.graph.reaches · ⟨4⟩) =
      [⟨0⟩, ⟨3⟩, ⟨4⟩] := by decide +kernel
  rw [hsub.ids, hkept]
  rfl

end Session

end Dataflow

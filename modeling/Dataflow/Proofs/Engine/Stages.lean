import Dataflow.Proofs.Engine.Operations
import Dataflow.Proofs.Graph.Reach
import Dataflow.Proofs.Lists
import Dataflow.Proofs.Rewrite.Filters

/-!
# Prepared plans

A valid plan can be prepared exactly if all its schemas can be derived (`exists_ofPlan_iff`). The
prepared plan is the given one with more derived schemas, and for each store it has one stage, which
lists what feeds the store: every operator behind its inputs, and the store at the end.
-/

namespace Dataflow

open Dataflow.Graph

variable {p q : Plan} {s : Storage} {d : NodeId → Meaning} {x y z t id : NodeId} {op : Operator}
  {ids order : List NodeId} {stage : Stage} {P : Prepared}

namespace Plan

/-! ## All schemas -/

theorem resolveSchemas_eq_ok {u : Unit} (ho : p.graph.topologicalOrder = .ok order) :
    resolveSchemas p = .ok u q ↔ order.forM (fun id => discard (schema id)) p = .ok u q := by
  unfold resolveSchemas
  rw [Pass.bind_of_ok Pass.get_apply,
    Pass.bind_of_ok (ofResult_eq_ok.mpr ⟨orError_eq_ok.mpr ho, rfl⟩)]

/-- The widths can be listed whenever the schemas can be derived. -/
theorem widthsOf_iff_forM : ∀ {ids : List NodeId} {p : Plan},
    (∃ widths, Prepared.widthsOf ids p = .ok widths q) ↔
      ids.forM (fun id => discard (schema id)) p = .ok () q
  | [], p => by simp [Prepared.widthsOf]
  | id :: rest, p => by
    unfold Prepared.widthsOf
    rw [Pass.forM_cons]
    simp only [Pass.bind_eq_ok, Pass.discard_eq_ok]
    constructor
    · rintro ⟨widths, t, r, ht, others, r', hr', h⟩
      rw [(EStateM.Result.ok.inj h).2] at hr'
      exact ⟨(), r, ⟨t, ht⟩, widthsOf_iff_forM.mp ⟨others, hr'⟩⟩
    · rintro ⟨u, r, ⟨t, ht⟩, h⟩
      obtain ⟨others, hothers⟩ := widthsOf_iff_forM.mpr h
      exact ⟨_, t, r, ht, others, q, hothers, rfl⟩

/-- The width that is listed for an operator is the one of its derived schema. -/
theorem widthsOf_spec : ∀ {ids : List NodeId} {p : Plan} {widths : List (NodeId × Nat)},
    p.Coherent → Prepared.widthsOf ids p = .ok widths q →
    Extends p q ∧ (∀ z ∈ ids, (q.memoOf z).isSome) ∧
      ∀ z, widths.lookup z = if z ∈ ids then ((q.memoOf z).join).map List.length else none
  | [], p, widths, hp, h => by
    obtain ⟨hw, hpq⟩ := EStateM.Result.ok.inj h
    rw [← hw, ← hpq]
    exact ⟨.refl hp, by simp, by simp⟩
  | id :: rest, p, widths, hp, h => by
    unfold Prepared.widthsOf at h
    obtain ⟨t, r, ht, h⟩ := Pass.bind_eq_ok.mp h
    obtain ⟨others, r', hr', h⟩ := Pass.bind_eq_ok.mp h
    obtain ⟨hw, hq⟩ := EStateM.Result.ok.inj h
    rw [hq] at hr'
    obtain ⟨hpr, hmemo⟩ := schema_eq_ok hp ht
    obtain ⟨hrq, hknown, hlookup⟩ := widthsOf_spec hpr.coherent hr'
    have hmemo := hrq.memo id t hmemo
    refine ⟨hpr.trans hrq, fun z hz => ?_, fun z => ?_⟩
    · rcases List.mem_cons.mp hz with rfl | hz
      · simp [hmemo]
      · exact hknown z hz
    · rw [← hw]
      by_cases hz : z = id
      · subst hz
        cases t with
        | some s => simp [hmemo]
        | none => simp [hlookup, hmemo]
      · cases t with
        | some s => simp [List.lookup_cons, hz, hlookup, beq_eq_false_iff_ne.mpr hz]
        | none => simp [hlookup, hz]

/-! ## What feeds a store -/

/-- Rows of `x` go into what `t` produces. -/
inductive Feeds (p : Plan) (t : NodeId) : NodeId → Prop
  | refl : Feeds p t t
  | step {x y : NodeId} : x ∈ p.dataInputs y → Feeds p t y → Feeds p t x

namespace Feeds

theorem trans (h : Feeds p t y) (hx : Feeds p y x) : Feeds p t x := by
  induction hx with
  | refl => exact h
  | step hx _ ih => exact .step hx ih

theorem alike (h : Alike p q) (hx : Feeds p t x) : Feeds q t x := by
  induction hx with
  | refl => exact .refl
  | step hx _ ih => exact .step (h.dataInputs.symm ▸ hx) ih

theorem alike_iff (h : Alike p q) : Feeds q t x ↔ Feeds p t x :=
  ⟨.alike h.symm, .alike h⟩

theorem contains (h : Feeds p t x) (hwf : p.graph.WellFormed) (ht : p.graph.contains t = true) :
    p.graph.contains x = true := by
  cases h with
  | refl => exact ht
  | step hx _ => exact contains_of_mem_dataInputs hwf hx

/-- What is not the store itself feeds it through an output. -/
theorem exists_output (h : Feeds p t x) (hx : x ≠ t) :
    ∃ y, x ∈ p.dataInputs y ∧ Feeds p t y := by
  cases h with
  | refl => exact absurd rfl hx
  | step hy h => exact ⟨_, hy, h⟩

theorem idxOf_le (h : Feeds p t x) (ho : p.graph.Ordered order)
    (hmem : ∀ z, z ∈ order ↔ p.graph.contains z = true) : order.idxOf x ≤ order.idxOf t := by
  induction h with
  | refl => exact Nat.le_refl _
  | @step x y hx _ ih =>
    have hpre := mem_predecessors_of_mem_dataInputs hx
    have hy := (hmem y).mpr (contains_of_mem_predecessors hpre)
    exact Nat.le_trans (Nat.le_of_lt (ho.idxOf_lt hy hpre)) ih

/-- No other store feeds a store. -/
theorem not_store (h : Feeds p t x) (hx : x ≠ t) (hwf : p.graph.WellFormed) (hv : p.Valid) :
    ¬p.HasType x .store := by
  rintro ⟨op, hop, hstore⟩
  obtain ⟨y, hy, -⟩ := h.exists_output hx
  have hpre := mem_predecessors_of_mem_dataInputs hy
  obtain ⟨opy, hopy, hload⟩ := ((hv.operators x op hop).other (by simp [hstore])).stored hstore y
    ((hwf.edge x y).mpr hpre)
  rw [dataInputs_of_operator? hopy, if_pos hload] at hy
  simp at hy

end Feeds

theorem mem_members (hwf : p.graph.WellFormed) (ht : p.graph.contains t = true) :
    x ∈ Prepared.members p t ↔ p.graph.contains x = true ∧ Feeds p t x := by
  unfold Prepared.members
  constructor
  · refine fun hx => ⟨walk_contains (by simp) x hx, ?_⟩
    refine walk_subset (R := Feeds p t) (fun y v hy hv z hz => ?_) (by simp [Feeds.refl]) (by simp)
      x hx
    rw [dataIns_eq hv] at hz
    exact .step hz hy
  · rintro ⟨-, hfeeds⟩
    have hclosed := @walk_closed _ p.graph dataIns [t] [] (by simp)
    induction hfeeds with
    | refl => exact hclosed.1 t (by simp) ht
    | @step x y hx _ ih =>
      have hpre := mem_predecessors_of_mem_dataInputs hx
      obtain ⟨v, hv⟩ := exists_vertex (contains_of_mem_predecessors hpre)
      exact hclosed.2 y v ih hv x (by rw [dataIns_eq hv]; exact hx) (hwf.source hpre)

/-! ## Stages -/

/-- The stage lists what feeds its store, each operator behind its inputs. -/
structure IsStage (p : Plan) (stage : Stage) : Prop where
  store : ∃ name, p.core? stage.store = some { name, operation := .store stage.location }
  operators : ∃ before, stage.operators = before ++ [stage.store] ∧ before.Nodup ∧
    ∀ x, x ∈ before ↔ p.graph.contains x = true ∧ Feeds p stage.store x ∧ x ≠ stage.store
  ordered : ∀ before x behind, stage.operators = before ++ x :: behind →
    ∀ y ∈ p.dataInputs x, y ∈ before

theorem IsStage.alike (h : Alike p q) (hs : IsStage p stage) : IsStage q stage where
  store := by rw [h.core?]; exact hs.store
  operators := by
    simp only [h.contains, Feeds.alike_iff h]
    exact hs.operators
  ordered := by
    simp only [h.dataInputs]
    exact hs.ordered

theorem IsStage.mem_operators (h : IsStage p stage) : x ∈ stage.operators ↔
    x = stage.store ∨ (p.graph.contains x = true ∧ Feeds p stage.store x) := by
  obtain ⟨before, heq, -, hmem⟩ := h.operators
  rw [heq, List.mem_append, hmem, List.mem_singleton]
  by_cases hx : x = stage.store <;> simp [hx]

/-- The stage of a store in a topological order of all operators. -/
theorem stageOf_spec (stores : List NodeId) (hwf : p.graph.WellFormed) (hnodup : order.Nodup)
    (hmem : ∀ z, z ∈ order ↔ p.graph.contains z = true) (hord : p.graph.Ordered order)
    (ht : p.HasType t .store) : ∃ stage, Prepared.stageOf p order stores t = .ok stage ∧
      stage.store = t ∧ IsStage p stage := by
  obtain ⟨op, hop, htype⟩ := ht
  obtain ⟨location, hloc⟩ : ∃ location, op.operation = .store location := by
    cases ho : op.operation <;> simp [Operator.type, ho, Operation.type] at htype
    exact ⟨_, rfl⟩
  have hct := contains_of_operator? hop
  have hmembers : ∀ x, (Prepared.members p t).contains x = true ↔
      p.graph.contains x = true ∧ Feeds p t x := fun x => by
    rw [List.contains_iff_mem, mem_members hwf hct]
  have hread : (p.operator? t >>= fun op => op.operation.location?) = some location := by
    rw [hop]
    simp [hloc, Operation.location?]
  unfold Prepared.stageOf
  simp only [hread]
  refine ⟨_, rfl, rfl, ⟨op.name, ?_⟩, ?_, ?_⟩
  · simp [core?, hop, Operator.core, hloc, Operation.withoutUids]
  · -- what stands behind the store in the order does not feed it
    obtain ⟨front, back, rfl, hnot⟩ := List.eq_append_cons_of_mem ((hmem t).mpr hct)
    obtain ⟨hfront, hcons, hdisj⟩ := List.nodup_append.mp hnodup
    obtain ⟨hback, -⟩ := List.nodup_cons.mp hcons
    have hnone : back.filter ((Prepared.members p t).contains ·) = [] := by
      refine List.filter_eq_nil_iff.mpr fun x hx hin => ?_
      have hle := ((hmembers x).mp hin).2.idxOf_le hord hmem
      have hxt : x ≠ t := by rintro rfl; exact hback hx
      have hxfront : x ∉ front := fun h => hdisj x h x (by simp [hx]) rfl
      rw [List.idxOf_append_of_notMem hxfront, List.idxOf_append_of_notMem hnot,
        List.idxOf_cons_ne _ hxt.symm, List.idxOf_cons_self] at hle
      omega
    refine ⟨front.filter ((Prepared.members p t).contains ·), ?_, hfront.filter _, fun x => ?_⟩
    · dsimp only
      rw [List.filter_append, List.filter_cons_of_pos ((hmembers t).mpr ⟨hct, .refl⟩), hnone]
    · rw [List.mem_filter, hmembers]
      dsimp only
      constructor
      · rintro ⟨hx, hcx, hfeeds⟩
        exact ⟨hcx, hfeeds, fun heq => hnot (heq ▸ hx)⟩
      · rintro ⟨hcx, hfeeds, hxt⟩
        refine ⟨?_, hcx, hfeeds⟩
        have hx : x ∈ front ++ t :: back := (hmem x).mpr hcx
        rcases List.mem_append.mp hx with hx | hx
        · exact hx
        · have hx : x ∈ back := (List.mem_cons.mp hx).resolve_left hxt
          exact absurd ((hmembers x).mpr ⟨hcx, hfeeds⟩) (List.filter_eq_nil_iff.mp hnone x hx)
  · intro before x behind heq y hy
    obtain ⟨front, back, rfl, rfl, hx⟩ := Lists.filter_eq_append_cons heq
    have hpre := mem_predecessors_of_mem_dataInputs hy
    refine List.mem_filter.mpr ⟨hord front x back rfl y hpre, (hmembers y).mpr ?_⟩
    exact ⟨hwf.source hpre, .step hy ((hmembers x).mp hx).2⟩

/-! ## Preparing -/

/-- The prepared plan is the given one with all schemas derived, and has a stage for each store. -/
structure Prepares (p : Plan) (P : Prepared) : Prop where
  valid : p.Valid
  derived : Extends p P.plan
  known : ∀ z, p.graph.contains z = true → (P.plan.memoOf z).isSome
  width : ∀ z, p.graph.contains z = true → P.width? z = ((P.plan.memoOf z).join).map List.length
  stages : ∀ stage ∈ P.stages, IsStage p stage
  stores : ∀ z, p.HasType z .store ↔ z ∈ P.stages.map Stage.store
  once : (P.stages.map Stage.store).Nodup

theorem mem_ofType {type : OperatorType} (hq : Alike p q) :
    x ∈ Prepared.ofType q type order ↔ x ∈ order ∧ p.HasType x type := by
  unfold Prepared.ofType
  rw [List.mem_filter]
  refine and_congr_right fun _ => ⟨fun h => hq.hasType ?_, fun h => ?_⟩
  · obtain ⟨op, hop, ht⟩ := Option.map_eq_some_iff.mp (eq_of_beq h)
    exact ⟨op, hop, ht⟩
  · obtain ⟨op, hop, ht⟩ := hq.symm.hasType h
    simp [hop, ht]

/-- Each store of the order gives the stage of what feeds it. -/
theorem stagesOf_spec (hwf : p.graph.WellFormed) (hnodup : order.Nodup)
    (hmem : ∀ z, z ∈ order ↔ p.graph.contains z = true) (hord : p.graph.Ordered order)
    (hq : Alike p q) :
    ∃ stages, (Prepared.ofType q .store order).mapM
        (Prepared.stageOf q order (Prepared.ofType q .store order)) = .ok stages ∧
      stages.map Stage.store = Prepared.ofType q .store order ∧
      ∀ stage ∈ stages, IsStage p stage := by
  refine Pass.exists_mapM fun t ht => ?_
  obtain ⟨stage, hstage, hst, his⟩ := stageOf_spec (Prepared.ofType q .store order)
    (hq.wellFormed hwf) hnodup (by simpa only [hq.contains] using hmem)
    (fun before id behind h y hy => hord before id behind h y (hq.predecessors id ▸ hy))
    (hq.symm.hasType ((mem_ofType hq).mp ht).2)
  exact ⟨stage, hstage, hst, his.alike hq.symm⟩

theorem ofPlan_eq_ok (hp : p.Sound) (h : Prepared.ofPlan p = .ok P) : Prepares p P := by
  unfold Prepared.ofPlan at h
  obtain ⟨_, hvalidate, h⟩ := Pass.except_bind_eq_ok.mp h
  have hv := (validate_eq_ok hp.wellFormed hp.formulas).mp (Engine.ofResult_eq_ok.mp hvalidate)
  obtain ⟨order, horder, h⟩ := Pass.except_bind_eq_ok.mp h
  have ho := orError_eq_ok.mp (Engine.ofResult_eq_ok.mp horder)
  cases hwidths : Prepared.widthsOf order p with
  | error e q => rw [hwidths] at h; simp at h
  | ok widths q =>
    rw [hwidths] at h
    obtain ⟨stages, hstages, h⟩ := Pass.except_bind_eq_ok.mp h
    obtain rfl : ({ plan := q, stages, widths } : Prepared) = P := by simpa using h
    obtain ⟨hext, hknown, hlookup⟩ := widthsOf_spec hp.coherent hwidths
    obtain ⟨hnodup, hmem, hord⟩ := topologicalOrder_spec hp.wellFormed ho
    obtain ⟨stages', hstages', hstores, his⟩ :=
      stagesOf_spec hp.wellFormed hnodup hmem hord hext.alike
    obtain rfl : stages' = stages := Except.ok.inj (hstages'.symm.trans hstages)
    refine ⟨hv, hext, fun z hz => hknown z ((hmem z).mpr hz), fun z hz => ?_, his, fun z => ?_, ?_⟩
    · exact (hlookup z).trans (if_pos ((hmem z).mpr hz))
    · dsimp only
      rw [hstores, mem_ofType hext.alike, hmem]
      exact ⟨fun ht => ⟨ht.contains, ht⟩, And.right⟩
    · dsimp only
      rw [hstores]
      exact hnodup.filter _

/-- The schemas of a plan that was prepared can be derived. -/
theorem resolveSchemas_of_ofPlan (hp : p.Ready) (h : Prepared.ofPlan p = .ok P) :
    ∃ q, resolveSchemas p = .ok () q := by
  obtain ⟨order, ho⟩ := exists_topologicalOrder hp.wellFormed hp.acyclic
  unfold Prepared.ofPlan at h
  obtain ⟨_, -, h⟩ := Pass.except_bind_eq_ok.mp h
  obtain ⟨order', horder', h⟩ := Pass.except_bind_eq_ok.mp h
  obtain rfl : order = order' := Except.ok.inj
    (ho.symm.trans (orError_eq_ok.mp (Engine.ofResult_eq_ok.mp horder')))
  cases hwidths : Prepared.widthsOf order p with
  | error e q => rw [hwidths] at h; simp at h
  | ok widths q => exact ⟨q, (resolveSchemas_eq_ok ho).mpr (widthsOf_iff_forM.mp ⟨widths, hwidths⟩)⟩

/-- A plan can be prepared exactly if it is valid and all its schemas can be derived. -/
theorem exists_ofPlan_iff (hp : p.Sound) :
    (∃ P, Prepared.ofPlan p = .ok P) ↔ p.Valid ∧ ∃ q, resolveSchemas p = .ok () q := by
  constructor
  · rintro ⟨P, h⟩
    have hv := (ofPlan_eq_ok hp h).valid
    exact ⟨hv, resolveSchemas_of_ofPlan (hp.ready hv) h⟩
  · rintro ⟨hv, q, hq⟩
    have hvalidate := (validate_eq_ok hp.wellFormed hp.formulas).mpr hv
    obtain ⟨order, ho⟩ := exists_topologicalOrder hp.wellFormed hv.acyclic
    obtain ⟨widths, hwidths⟩ := widthsOf_iff_forM.mpr ((resolveSchemas_eq_ok ho).mp hq)
    obtain ⟨hnodup, hmem, hord⟩ := topologicalOrder_spec hp.wellFormed ho
    obtain ⟨hext, -⟩ := widthsOf_spec hp.coherent hwidths
    obtain ⟨stages, hstages, -⟩ := stagesOf_spec hp.wellFormed hnodup hmem hord hext.alike
    refine ⟨{ plan := q, stages, widths }, ?_⟩
    unfold Prepared.ofPlan
    rw [hvalidate, orError_eq_ok.mpr ho]
    simp only [RunResult.ofResult, Pass.except_ok_bind, hwidths, hstages, Pass.except_pure]

end Plan

end Dataflow

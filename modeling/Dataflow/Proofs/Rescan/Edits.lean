import Dataflow.Proofs.Rescan.Sources
import Dataflow.Proofs.Rewrite.Impassable
import Dataflow.Proofs.Rewrite.Meaning

/-!
# Filters may go where they like

Splitting, merging and moving filters leaves the flow of a plan alone (`HasFlow.cascade`,
`HasFlow.cascade_back`, `HasFlow.pushes`): no identity is taken, and what is not a filter gets its
rows from where it got them before, as far as filters do not count.
-/

namespace Dataflow.Plan

open Dataflow.Graph

variable {p q : Plan} {x y z r s u w F G input : NodeId} {f f' l g : Formula} {W : Flow}
  {path : List NodeId}

/-- Where the parameters of an operator are kept and no identities are taken, it lasts. -/
theorem SameIdentities.lasting (h : SameIdentities p q) (hz : q.core? z = p.core? z) :
    q.lasting z = p.lasting z := by
  unfold Plan.core? at hz
  unfold Plan.lasting
  cases hop : p.operator? z with
  | none =>
    rw [hop, Option.map_none, Option.map_eq_none_iff] at hz
    rw [hz]
  | some op =>
    rw [hop, Option.map_some] at hz
    obtain ⟨op', hop', hcore⟩ := Option.map_eq_some_iff.mp hz
    have htype : op'.type = op.type := by rw [← Operator.type_core, hcore, Operator.type_core]
    rw [hop', Option.bind_some, Option.bind_some, htype, h.forget_eq hop hop' hcore]

theorem lasting_of_filter (h : p.HasType z .filter) : p.lasting z = none := by
  obtain ⟨op, hop, ht⟩ := h
  rw [lasting, hop]
  exact if_pos ht

theorem lasting_of_core?_none (h : p.core? z = none) : p.lasting z = none := by
  unfold Plan.core? at h
  rw [lasting, Option.map_eq_none_iff.mp h]
  rfl

theorem Cascade.lasting (h : Cascade p q u w f l g)
    (hother : ∀ z, z ≠ u → z ≠ w → q.lasting z = p.lasting z) : q.lasting z = p.lasting z := by
  obtain ⟨_, hu⟩ := h.whole
  obtain ⟨_, hu'⟩ := h.first
  obtain ⟨_, hw⟩ := h.second
  by_cases hzu : z = u
  · rw [hzu, lasting_of_filter hu.hasType, lasting_of_filter hu'.hasType]
  by_cases hzw : z = w
  · rw [hzw, lasting_of_filter hw.hasType, lasting_of_core?_none h.absent]
  · exact hother z hzu hzw

theorem Cascade.under (h : Cascade p q u w f l g) (hlast : ∀ z, q.lasting z = p.lasting z)
    (hx : p.Under x r) : q.Under (renamed u w x) r := by
  obtain ⟨_, hu⟩ := h.whole
  obtain ⟨_, hu'⟩ := h.first
  obtain ⟨_, hw⟩ := h.second
  induction hx with
  | @self r hr =>
    have hru : r ≠ u := by
      rintro rfl
      rw [lasting_of_filter hu.hasType] at hr
      cases hr
    rw [renamed_of_ne hru]
    exact .self (by rwa [hlast])
  | @filter x y r hx hpre _ ih =>
    have hxw : x ≠ w := h.ne_of_contains hx.contains
    have hpre' : q.graph.predecessors x = [renamed u w y] := by
      rw [h.predecessors_of_ne hxw, hpre, List.map_singleton]
    have hfirst : q.Under x r := .filter (h.filter hx) hpre' ih
    by_cases hxu : x = u
    · rw [hxu, renamed_self]
      exact .filter hw.hasType (by rw [h.predecessors, if_pos rfl]) (hxu ▸ hfirst)
    · rwa [renamed_of_ne hxu]

/-- A cascade in the place of a filter leaves the flow alone. -/
theorem HasFlow.cascade (hW : p.HasFlow W) (h : Cascade p q u w f l g)
    (hlast : ∀ z, q.lasting z = p.lasting z) (huids : q.uids = p.uids) : q.HasFlow W where
  op r := (hW.op r).trans (hlast r).symm
  inputs r hr := by
    have hrw : r ≠ w := by
      rintro rfl
      rw [hW.op, lasting_of_core?_none h.absent] at hr
      cases hr
    rw [h.dataInputs_of_ne hrw, List.forall₂_map_left_iff]
    exact (hW.inputs r hr).imp fun _ _ hu => h.under hlast hu
  absent := hW.absent
  uids := hW.uids.trans huids.symm

/-- A filter in the place of a cascade leaves the flow alone. -/
theorem HasFlow.cascade_back (hW : p.HasFlow W) (h : Cascade q p u w f l g) (hp : q.Sound)
    (hv : q.Valid) (hlast : ∀ z, q.lasting z = p.lasting z) (huids : q.uids = p.uids) :
    q.HasFlow W := by
  obtain ⟨W', hW'⟩ := exists_hasFlow hp hv
  obtain rfl := hW.unique (hW'.cascade h (fun z => (hlast z).symm) huids.symm)
  exact hW'

theorem Pushes.lasting {path : List NodeId} (h : Pushes p q input F G path f f')
    (hother : ∀ z, z ≠ G → q.lasting z = p.lasting z) : q.lasting z = p.lasting z := by
  obtain ⟨_, hG⟩ := h.before
  obtain ⟨_, hG'⟩ := h.after
  by_cases hz : z = G
  · rw [hz, lasting_of_filter hG.hasType, lasting_of_filter hG'.hasType]
  · exact hother z hz

theorem Pushes.under {path : List NodeId} {a : NodeId} (h : Pushes p q input F G path f f')
    (hp : p.Sound) (hv : p.Valid) (ha : p.graph.successors a = [G]) (haG : a ≠ G)
    (hlast : ∀ z, q.lasting z = p.lasting z) (hx : p.Under x r) : q.Under (renamed G a x) r := by
  obtain ⟨_, hG⟩ := h.before
  have hpreG := hG.predecessors_eq hp hv (x := a) (by simp [ha])
  induction hx with
  | @self r hr =>
    have hrG : r ≠ G := by
      rintro rfl
      rw [lasting_of_filter hG.hasType] at hr
      cases hr
    rw [renamed_of_ne hrG]
    exact .self (by rwa [hlast])
  | @filter x y r hx hpre _ ih =>
    by_cases hxG : x = G
    · -- what fed the moved filter takes its place
      subst hxG
      obtain rfl := List.singleton_inj.mp (hpreG.symm.trans hpre)
      rw [renamed_self]
      rwa [renamed_of_ne haG] at ih
    · have hxF : x ≠ F := by
        rintro rfl
        exact hx.not (by simp) h.forEach
      rw [renamed_of_ne hxG]
      refine .filter (h.hasType.mpr hx) ?_ ih
      rw [h.predecessors a ha, if_neg hxG, if_neg hxF, hpre, List.map_singleton]

theorem Pushes.dataInputs_of_ne {a : NodeId} (h : Pushes p q input F G path f f')
    (ha : p.graph.successors a = [G]) (hzG : z ≠ G) (hzF : z ≠ F) :
    q.dataInputs z = (p.dataInputs z).map (renamed G a) := by
  cases hop : p.core? z with
  | none =>
    rw [dataInputs_of_none hop, dataInputs_of_none ((h.other z hzG).trans hop)]
    rfl
  | some op =>
    rw [dataInputs_of_core? hop, dataInputs_of_core? ((h.other z hzG).trans hop),
      h.predecessors a ha, if_neg hzG, if_neg hzF]
    split <;> rfl

/-- A moved filter leaves the flow alone. -/
theorem HasFlow.pushes {path : List NodeId} (hW : p.HasFlow W) (h : Pushes p q input F G path f f')
    (hp : p.Sound) (hv : p.Valid) (hlast : ∀ z, q.lasting z = p.lasting z)
    (huids : q.uids = p.uids) :
    q.HasFlow W where
  op r := (hW.op r).trans (hlast r).symm
  inputs r hr := by
    obtain ⟨a, -, ha, haG⟩ := h.exists_above hp.wellFormed
    obtain ⟨_, hG⟩ := h.before
    obtain ⟨_, hG'⟩ := h.after
    have hins := hW.inputs r hr
    have hrG : r ≠ G := by
      rintro rfl
      rw [hW.op, lasting_of_filter hG.hasType] at hr
      cases hr
    have hunder : ∀ {y s}, p.Under y s → q.Under (renamed G a y) s := fun hu =>
      h.under hp hv ha haG hlast hu
    by_cases hrF : r = F
    · -- the moved filter is under what was the input of the operator
      subst hrF
      obtain ⟨hin, hin'⟩ := h.dataInputs_forEach hp.wellFormed
      obtain ⟨hinG, -⟩ := h.input_apart hp.wellFormed hv.acyclic
      rw [hin, List.forall₂_cons_left_iff] at hins
      obtain ⟨s, rest, hu, hrest, hs⟩ := hins
      rw [hin', hs]
      refine .cons (.filter hG'.hasType (by rw [h.predecessors a ha, if_pos rfl]) ?_) ?_
      · have := hunder hu
        rwa [renamed_of_ne hinG] at this
      · rw [List.forall₂_nil_left_iff] at hrest ⊢
        exact hrest
    · rw [h.dataInputs_of_ne ha hrG hrF, List.forall₂_map_left_iff]
      exact hins.imp fun _ _ hu => hunder hu
  absent := hW.absent
  uids := hW.uids.trans huids.symm

end Dataflow.Plan

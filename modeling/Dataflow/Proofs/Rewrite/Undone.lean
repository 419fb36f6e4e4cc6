import Dataflow.Proofs.Formula.Conjuncts
import Dataflow.Proofs.Rewrite.Intact
import Dataflow.Proofs.Rewrite.Search

/-!
# Splitting undone by merging

A filter by a conjunction is split, and the two filters are merged again. Both rules put operators
in the places of others, so that what the one does to the edges the other takes back: after the two
of them every operator has the outputs and inputs that it had (`Cascade.views_back`). The predicate
is not the old one but the conjunction of copies of its parts. If the old one was laid out as an
expression, so is the new one, and they are equal up to keys (`LaidOut.same`).
-/

namespace Dataflow

open Dataflow.Graph Formula

/-! ## Operators that equal themselves -/

mutual

/-- A column has the shape of itself. -/
theorem Field.sameShape_self : ∀ f : Field, f.sameShape f = true
  | ⟨n, t, inner, _, _⟩ => by simp [Field.sameShape, Schema.nestedSameShape_self inner]

theorem Schema.nestedSameShape_self : ∀ s : Option (List Field), Schema.nestedSameShape s s = true
  | none => rfl
  | some s => Schema.sameShape_self s

theorem Schema.sameShape_self : ∀ s : List Field, Schema.sameShape s s = true
  | [] => rfl
  | a :: as => by simp [Schema.sameShape, Field.sameShape_self a, Schema.sameShape_self as]

end

namespace Operation

theorem pairwise_self {α : Type} {related : α → α → Bool} {as : List α}
    (h : ∀ a ∈ as, related a a = true) : pairwise related as as = true := by
  rw [pairwise, Bool.and_eq_true, beq_iff_eq, List.all_eq_true]
  refine ⟨rfl, ?_⟩
  rintro ⟨a, b⟩ hab
  obtain ⟨i, hi⟩ := List.mem_iff_getElem?.mp hab
  obtain ⟨ha, hb⟩ := List.getElem?_zip_eq_some.mp hi
  have heq : a = b := Option.some.inj (ha.symm.trans hb)
  rw [← heq]
  exact h a (List.mem_of_getElem? ha)

/-- An operation is the same as itself if its formulas are. -/
theorem same_self {o : Operation} (h : ∀ f ∈ o.formulas, f.same f = true) : o.same o = true := by
  cases o with
  | load l => simp [same, sameDeclaration, Schema.nestedSameShape_self]
  | filter f => exact h f (by simp [formulas])
  | splitOutput c => exact h c (by simp [formulas])
  | join type keys =>
    rw [same, Bool.and_eq_true, beq_iff_eq]
    refine ⟨rfl, pairwise_self fun fs hfs => pairwise_self fun f hf => ?_⟩
    exact h f (List.mem_flatten.mpr ⟨fs, hfs, hf⟩)
  | forEach items =>
    rw [same]
    refine pairwise_self fun item hitem => ?_
    have hf := h item.formula (List.mem_map_of_mem hitem)
    simp [hf]
  | sort keys =>
    rw [same]
    refine pairwise_self fun key hkey => ?_
    have hf := h key.formula (List.mem_map_of_mem hkey)
    simp [hf]
  | _ => simp [same]

theorem withoutUids_eq_self {o : Operation} (h : ∀ uids, o ≠ .union uids) : o.withoutUids = o := by
  cases o with
  | union uids => exact absurd rfl (h uids)
  | _ => rfl

/-- The identities that a union has chosen do not matter. -/
theorem same_of_withoutUids {a b : Operation} (hab : a.withoutUids = b.withoutUids)
    (h : ∀ f ∈ b.formulas, f.same f = true) : a.same b = true := by
  cases b with
  | union uids =>
    cases a with
    | union uids' => rfl
    | _ => cases hab
  | _ =>
    rw [withoutUids_eq_self (o := a) (by rintro uids rfl; cases hab)] at hab
    rw [hab]
    exact same_self h

end Operation

/-- Operators that differ in what was derived for them only are the same. -/
theorem Operator.same_of_core {a b : Operator} (hab : a.core = b.core)
    (h : ∀ f ∈ b.operation.formulas, f.same f = true) : a.same b = true := by
  have hname : a.core.name = b.core.name := by rw [hab]
  have hoperation : a.core.operation = b.core.operation := by rw [hab]
  rw [same, Bool.and_eq_true, beq_iff_eq]
  exact ⟨hname, Operation.same_of_withoutUids hoperation h⟩

namespace Plan

variable {p q r : Plan} {u w z : NodeId} {f c l l' : Formula} {name : Option String}

/-- Whether a constant in the plan has something in it that is not a number. -/
def hasNaN (p : Plan) : Bool :=
  p.toList.any fun (_, op) => op.operation.formulas.any Formula.hasNaN

theorem formula_hasNaN {x : NodeId} {op : Operator} (hp : p.graph.WellFormed)
    (hnan : p.hasNaN = false) (hop : p.operator? x = some op) (hf : f ∈ op.operation.formulas) :
    f.hasNaN = false := by
  have hmem : (x, op) ∈ p.toList := hp.mem_toList_iff.mpr hop
  have h := List.any_eq_false.mp hnan (x, op) hmem
  simpa using List.any_eq_false.mp (by simpa using h) f hf

/-- The formulas of a valid plan without such constants are equal to themselves. -/
theorem formula_same_self {x : NodeId} {op : Operator} (hp : p.Sound) (hv : p.Valid)
    (hnan : p.hasNaN = false) (hop : p.operator? x = some op) (hf : f ∈ op.operation.formulas) :
    f.same f = true := by
  have hload : op.type ≠ .load := by
    intro hload
    obtain ⟨name, o, memo⟩ := op
    cases o <;> simp [Operator.type, Operation.type] at hload
    simp [Operation.formulas] at hf
  exact same_self (hp.formulas x op hop f hf)
    (((hv.operators x op hop).other hload).formulas f hf).valid
    (formula_hasNaN hp.wellFormed hnan hop hf)

theorem formula_hasNaN_of_isFilter (hp : p.graph.WellFormed) (hnan : p.hasNaN = false)
    (hu : p.IsFilter u name f) : f.hasNaN = false := by
  obtain ⟨op, hop, ho, -⟩ := hu.operator?
  exact formula_hasNaN hp hnan hop (by simp [ho, Operation.formulas])

/-! ## Edges taken back -/

/-- Two plans that the same two filters are a cascade of have the same inputs, and the same
operators but for the filter by the conjunction. -/
theorem Cascade.views_back {f' : Formula} {l r' : Formula} (h : Cascade p q u w f l r')
    (h' : Cascade r q u w f' l r') (hp : p.graph.WellFormed) (hr : r.graph.WellFormed) :
    (∀ z, r.graph.predecessors z = p.graph.predecessors z) ∧
      ∀ z, z ≠ u → r.core? z = p.core? z := by
  have hnot : ∀ {s : Plan}, s.core? w = none → s.graph.contains w = false := fun hs => by
    rw [contains_eq_core?, hs]
    rfl
  refine ⟨fun z => ?_, fun z hzu => ?_⟩
  · by_cases hz : z = w
    · rw [hz, predecessors_of_not_contains (hnot h.absent),
        predecessors_of_not_contains (hnot h'.absent)]
    · rw [h.predecessors_back hp hz, h'.predecessors_back hr hz]
  · by_cases hz : z = w
    · rw [hz, h.absent, h'.absent]
    · rw [← h.other z hzu hz, h'.other z hzu hz]

/-- The outputs that a split hands on to the new operator a merge hands back. -/
theorem successors_back (huw : u ≠ w) (hw : p.graph.successors w = [])
    (hsplit : ∀ z, q.graph.successors z = if z = u then [w]
      else if z = w then p.graph.successors u else p.graph.successors z)
    (hmerge : ∀ z, r.graph.successors z = if z = w then []
      else if z = u then q.graph.successors w else q.graph.successors z) (z : NodeId) :
    r.graph.successors z = p.graph.successors z := by
  rw [hmerge, hsplit, if_neg huw.symm, if_pos rfl, hsplit]
  by_cases hzw : z = w
  · rw [if_pos hzw, hzw, hw]
  · rw [if_neg hzw]
    by_cases hzu : z = u
    · rw [if_pos hzu, hzu]
    · rw [if_neg hzu, if_neg hzu, if_neg hzw]

/-- A plan in which a filter has another predicate that is equal up to keys is the same plan. -/
theorem same_of_filter (hp : p.Sound) (hv : p.Valid) (hr : r.Sound) (hrv : r.Valid)
    (hnan : p.hasNaN = false) (hu : p.IsFilter u name f) (hu' : r.IsFilter u name c)
    (hsame : c.same f = true) (hother : ∀ z, z ≠ u → r.core? z = p.core? z)
    (hsuc : ∀ z, r.graph.successors z = p.graph.successors z)
    (hpre : ∀ z, r.graph.predecessors z = p.graph.predecessors z) : r.same p = true := by
  have hcontains : ∀ z, r.graph.contains z = p.graph.contains z := by
    intro z
    rw [contains_eq_core?, contains_eq_core?]
    by_cases hz : z = u
    · subst hz
      rw [show p.core? z = _ from hu, show r.core? z = _ from hu']
      rfl
    · rw [hother z hz]
  refine (isIsomorphic_iff hr.wellFormed hp.wellFormed hrv.acyclic).mpr
    ⟨id, ⟨?_, fun z a ha => ?_, fun z _ => ?_, fun z _ => ?_⟩⟩
  · have hset : {z | r.graph.contains z = true} = {z | p.graph.contains z = true} := by
      ext z
      simp [hcontains]
    rw [hset]
    exact Set.bijOn_id _
  · obtain ⟨b, hb⟩ := exists_operator? ((hcontains z).symm.trans (contains_of_content? ha))
    refine ⟨b, hb, ?_⟩
    by_cases hz : z = u
    · subst hz
      obtain ⟨op, hop, ho, hname⟩ := hu.operator?
      obtain ⟨op', hop', ho', hname'⟩ := hu'.operator?
      obtain rfl := Option.some.inj (hb.symm.trans hop)
      obtain rfl := Option.some.inj (Eq.trans (Eq.symm ha) hop')
      simp [Operator.same, Operation.same, hname, hname', ho, ho', hsame]
    · have hcore : a.core = b.core := by
        have h := hother z hz
        rw [core?, core?, hb, show r.operator? z = some a from ha] at h
        exact Option.some.inj h
      exact Operator.same_of_core hcore fun f hf => formula_same_self hp hv hnan hb hf
  · rw [hsuc]
    exact (List.map_id _).symm
  · rw [hpre]
    exact (List.map_id _).symm

end Plan

namespace Rule

open Plan

variable {p : Plan} {u w : NodeId} {f : Formula} {name : Option String} {d e : Expr}

/-- Splitting applies to a filter by a conjunction. -/
theorem splitFilter_appliesTo {region : Region} {q : Plan} (hu : p.IsFilter u name f)
    (hf : f.isConjunction = true) (hrun : splitFilter.transform ⟨[u]⟩ p = .ok region q) :
    splitFilter.AppliesTo ⟨[u]⟩ p q := by
  obtain ⟨pattern, hchain, hsingle⟩ := Pattern.exists_single .filter
  refine ⟨⟨pattern, u, hchain, hsingle.exists_match hu.hasType⟩, p, region, ?_, hrun⟩
  rw [splitFilter_check rfl hu, hf]

/-- Merging applies to a filter and the one that is its only output. -/
theorem mergeFilter_appliesTo {region : Region} {q : Plan} (hp : p.graph.WellFormed)
    (hu : p.HasType u .filter) (hw : p.HasType w .filter) (hsuc : p.graph.successors u = [w])
    (hrun : mergeFilter.transform ⟨[u, w]⟩ p = .ok region q) :
    mergeFilter.AppliesTo ⟨[u, w]⟩ p q := by
  obtain ⟨pattern, hchain, hpair⟩ := Pattern.exists_pair .filter
  have hne := hp.ne_of_edge (show w ∈ p.graph.successors u by simp [hsuc])
  refine ⟨⟨pattern, u, hchain, hpair.exists_match hsuc hne hu hw⟩, p, region, ?_, hrun⟩
  rw [mergeFilter_check rfl, hsuc]
  rfl

/-- A filter whose predicate was laid out as a conjunction is split, and the filters that this
leaves can be merged. The plan that comes of it is the same as before: every operator has the inputs
and the outputs that it had, in the same slots. -/
theorem mergeFilter_undoes_splitFilter (hp : p.Sound) (hvalid : p.validate = .ok ())
    (hnan : p.hasNaN = false) (hkeys : p.graph.nextKey.toNat + 1 < 2 ^ 64)
    (hu : p.IsFilter u name f) (hsize : (Expr.binary .and d e).size < 2 ^ 64)
    (hof : ofExpr (.binary .and d e) = .ok f) :
    ∃ w q r, q.graph.ids = p.graph.ids ++ [w] ∧ splitFilter.AppliesTo ⟨[u]⟩ p q ∧
      mergeFilter.AppliesTo ⟨[u, w]⟩ q r ∧ r.validate = .ok () ∧ r.same p = true ∧
      r.graph.ids = p.graph.ids ∧ ∀ z, r.graph.successors z = p.graph.successors z ∧
        r.graph.predecessors z = p.graph.predecessors z := by
  have hv := (Plan.validate_eq_ok hp.wellFormed hp.formulas).mp hvalid
  have hlaid := laidOut_ofExpr hsize hof
  have hconj := (isConjunction_iff_toExpr hlaid.sound hlaid.valid hlaid.toExpr).mpr ⟨d, e, rfl⟩
  -- the filter is split
  obtain ⟨region, q, l, l', hsplit, hqs, hqv, -, hcascade, hl, hl', hids, -, hsuc, hparts⟩ :=
    splitFilter_spec (m := ⟨[u]⟩) hp hv rfl hu hconj
  have hq := hqs hkeys
  obtain ⟨hlaidl, hlaidl'⟩ : LaidOut l d ∧ LaidOut l' e := by
    obtain ⟨a, b, hab, ha, hb⟩ := hlaid.split
    obtain ⟨rfl, rfl⟩ : a = l ∧ b = l' := by simpa using hab.symm.trans hparts
    exact ⟨ha, hb⟩
  have hfresh := fresh_of_keysBelow hp.wellFormed hp.keysBelow
  have hnotw : (⟨p.graph.nextKey⟩ : NodeId) ∉ p.graph.ids := by
    rw [hp.wellFormed.mem_ids, hfresh]
    simp
  have hsucu : q.graph.successors u = [⟨p.graph.nextKey⟩] := by rw [hsuc, if_pos rfl]
  -- the two are merged
  have hroom : Conjoinable l l' := by
    refine conjoinable_of_weight hlaidl.sound hlaidl.valid hlaidl'.sound hlaidl'.valid ?_
    rw [hlaidl.weight_eq, hlaidl'.weight_eq]
    exact hsize
  obtain ⟨region', r, c, hmerge, hr, hrv, hcascade', huc, hids', -, hsuc', hc, -⟩ :=
    mergeFilter_spec (m := ⟨[u, ⟨p.graph.nextKey⟩]⟩) hq hqv rfl rfl hl hl' hsucu hroom
  have hlaidc : LaidOut c (.binary .and d e) := by
    obtain ⟨c', hc', hlaidc⟩ := hlaidl.join hlaidl' hsize
    exact Except.ok.inj (hc'.symm.trans hc) ▸ hlaidc
  -- each operator is back where it was
  obtain ⟨hpre, hother⟩ := hcascade.views_back hcascade' hp.wellFormed hr.wellFormed
  have hback := successors_back hcascade.ne (successors_of_not_contains hfresh) hsuc hsuc'
  refine ⟨⟨p.graph.nextKey⟩, q, r, hids, splitFilter_appliesTo hu hconj hsplit,
    mergeFilter_appliesTo hq.wellFormed hl.hasType hl'.hasType hsucu hmerge,
    (Plan.validate_eq_ok hr.wellFormed hr.formulas).mpr hrv, ?_, ?_, fun z => ⟨hback z, hpre z⟩⟩
  · refine same_of_filter hp hv hr hrv hnan hu huc ?_ hother hback hpre
    exact hlaidc.same hlaid (formula_hasNaN_of_isFilter hp.wellFormed hnan hu)
  · rw [hids', hids, List.filter_append, List.filter_eq_self.mpr]
    · simp
    · exact fun z hz => bne_iff_ne.mpr fun heq => hnotw (heq ▸ hz)

/-- What the filter of `forked` keeps rows by. -/
def bothFlags : Expr := .binary .and (.column 0 0 none) (.column 0 1 none)

/-- A named filter that two operators read, of which one reads the input of the filter too. -/
def forked : AdmittedPlan := .make (do
  let load ← append { operation := .load { location := "/in" } } []
  let kept ← append
    { name := some "kept", operation := .filter ((ofExpr bothFlags).toOption.getD {}) } [load]
  let _ ← append { operation := .union [] } [load, kept]
  append { operation := .store "/out" } [kept]) (by decide +kernel)

theorem forked_restored : forked.plan.successors ⟨1⟩ = [⟨2⟩, ⟨3⟩] ∧
    ∃ w q r, q.graph.ids = forked.plan.graph.ids ++ [w] ∧
      splitFilter.AppliesTo ⟨[⟨1⟩]⟩ forked.plan q ∧ mergeFilter.AppliesTo ⟨[⟨1⟩, w]⟩ q r ∧
      r.validate = .ok () ∧ r.same forked.plan = true ∧ r.graph.ids = forked.plan.graph.ids ∧
      ∀ z, r.graph.successors z = forked.plan.graph.successors z ∧
        r.graph.predecessors z = forked.plan.graph.predecessors z := by
  have hkept : forked.plan.IsFilter ⟨1⟩ (some "kept") ((ofExpr bothFlags).toOption.getD {}) := by
    with_unfolding_all rfl
  have hof : ofExpr bothFlags = .ok ((ofExpr bothFlags).toOption.getD {}) := rfl
  exact ⟨by decide +kernel, mergeFilter_undoes_splitFilter forked.sound forked.valid
    (by decide +kernel) (by decide +kernel) hkept (by decide +kernel) hof⟩

end Rule

end Dataflow

import Dataflow.Proofs.Formula.Value
import Dataflow.Proofs.Plan.Edit
import Dataflow.Proofs.Plan.Requests

/-!
# What the rules for filters do

Splitting a filter, merging two filters and moving a filter in front of a `ForEach` are described by
relations between the plans before and after (`Splits`, `Merges`, `Pushes`): which operators there
are, up to derived schemas, and which inputs each has. A rule that is applied to a sound and valid
plan ends with a plan that is related to it, sound and valid.
-/

namespace Dataflow.Plan

open Dataflow.Graph

variable {p q : Plan} {a b x y z id : NodeId} {op : Operator} {f g l r c : Formula}

/-! ## Filters -/

/-- The operator is a filter by the given formula. -/
def IsFilter (p : Plan) (id : NodeId) (name : Option String) (f : Formula) : Prop :=
  p.core? id = some { name, operation := .filter f }

variable {name name' : Option String}

theorem IsFilter.hasType (h : p.IsFilter id name f) : p.HasType id .filter :=
  hasType_iff_core?.mpr ⟨_, h, rfl⟩

theorem isFilter_of_operator? (hop : p.operator? id = some op) (hf : op.operation = .filter f) :
    p.IsFilter id op.name f := by
  unfold IsFilter core?
  rw [hop]
  simp [Operator.core, hf, Operation.withoutUids]

theorem IsFilter.operator? (h : p.IsFilter id name f) : ∃ op, p.operator? id = some op ∧
    op.operation = .filter f ∧ op.name = name := by
  obtain ⟨op, hop, hcore⟩ := Option.map_eq_some_iff.mp h
  refine ⟨op, hop, ?_, by simpa using congrArg Operator.name hcore⟩
  have := congrArg Operator.operation hcore
  simp only [Operator.operation_core] at this
  cases ho : op.operation <;> simp_all [Operation.withoutUids]

theorem IsFilter.dataInputs (h : p.IsFilter id name f) :
    p.dataInputs id = p.graph.predecessors id := by
  rw [dataInputs_of_core? h, if_neg (by simp [Operator.type, Operation.type])]

theorem HasType.isFilter (h : p.HasType id .filter) : ∃ name f, p.IsFilter id name f := by
  obtain ⟨op, hop, ht⟩ := h
  cases ho : op.operation <;> simp [Operator.type, ho, Operation.type] at ht
  exact ⟨_, _, isFilter_of_operator? hop ho⟩

theorem HasType.contains {t : OperatorType} (h : p.HasType id t) :
    p.graph.contains id = true := by
  obtain ⟨op, hop, -⟩ := h
  exact contains_of_operator? hop

theorem HasType.not {t t' : OperatorType} (h : p.HasType id t) (hne : t ≠ t') :
    ¬p.HasType id t' := fun h' => hne (h.unique h')

theorem IsFilter.unique {name' : Option String} (h : p.IsFilter id name f)
    (h' : p.IsFilter id name' g) : f = g ∧ name = name' := by
  have := h.symm.trans h'
  simp only [Option.some.injEq, Operator.mk.injEq, Operation.filter.injEq] at this
  exact ⟨this.2.1, this.1⟩

theorem Alike.isFilter (h : Alike p q) : q.IsFilter id name f ↔ p.IsFilter id name f := by
  unfold IsFilter
  rw [h.core?]

theorem filterPredicate_eq_ok : Rule.filterPredicate p id = .ok f ↔
    ∃ name, p.IsFilter id name f := by
  unfold Rule.filterPredicate
  rw [Pass.except_bind_eq_ok]
  constructor
  · rintro ⟨op, hop, h⟩
    have hop := operator_eq_ok.mp hop
    cases ho : op.operation <;> simp [ho, Operation.predicate?] at h
    subst h
    exact ⟨_, isFilter_of_operator? hop ho⟩
  · rintro ⟨name, h⟩
    obtain ⟨op, hop, ho, -⟩ := h.operator?
    exact ⟨op, operator_eq_ok.mpr hop, by simp [ho, Operation.predicate?]⟩

/-- The predicate of a filter of a valid plan. -/
theorem IsFilter.predicate (h : p.IsFilter id name f) (hs : p.Sound) (hv : p.Valid) :
    f.Sound ∧ f.Valid ∧ (∀ col ∈ f.columns, col.1 < 1) ∧
      ∃ a, p.graph.predecessors id = [a] ∧ ∀ t, p.HasType a t → t ≠ .store := by
  obtain ⟨op, hop, ho, -⟩ := h.operator?
  have ht : op.type = .filter := by simp [Operator.type, ho, Operation.type]
  have hfit := (hv.operators id op hop).other (by simp [ht])
  have hlen : (p.graph.predecessors id).length = 1 := by
    have h1 := hfit.enough
    have h2 := hfit.single (by rw [ht]; rfl)
    rw [ht] at h1
    change 1 ≤ _ at h1
    omega
  have hmem : f ∈ op.operation.formulas := by simp [ho, Operation.formulas]
  obtain ⟨a, ha⟩ := List.length_eq_one_iff.mp hlen
  refine ⟨hs.formulas id op hop f hmem, (hfit.formulas f hmem).valid, fun col hcol => ?_, a, ha,
    fun t hta htstore => ?_⟩
  · have := (hfit.formulas f hmem).columns col hcol
    rwa [hlen] at this
  · obtain ⟨opa, hopa, rfl⟩ := hta
    have hfita := (hv.operators a opa hopa).other (by simp [htstore])
    have := hfita.stored htstore id ((hs.wellFormed.edge a id).mpr (by simp [ha]))
    exact absurd (this.unique h.hasType) (by simp)

/-- What leads to a filter is its only input. -/
theorem IsFilter.predecessors_eq (h : p.IsFilter id name f) (hs : p.Sound) (hv : p.Valid)
    (hx : id ∈ p.graph.successors x) : p.graph.predecessors id = [x] := by
  obtain ⟨-, -, -, a, ha, -⟩ := h.predicate hs hv
  have hpre := (hs.wellFormed.edge x id).mp hx
  rw [ha, List.mem_singleton] at hpre
  rw [ha, hpre]

/-! ## Validity across rewiring -/

/-- How a plan with moved and changed filters relates to a valid one: other operators are as before,
and where an input of theirs was replaced, no store was involved. -/
structure Rewired (p q : Plan) : Prop where
  acyclic : q.graph.Acyclic
  kept : ∀ z t, t ≠ .filter → (p.HasType z t → q.core? z = p.core? z) ∧
    (q.HasType z t → q.core? z = p.core? z)
  inputs : ∀ z t, t ≠ .filter → q.HasType z t → ∃ moved : NodeId → NodeId,
    q.graph.predecessors z = (p.graph.predecessors z).map moved ∧
      ∀ a ∈ p.graph.predecessors z, moved a = a ∨
        (¬p.HasType a .store ∧ ¬q.HasType (moved a) .store)
  filters : ∀ z name f, q.IsFilter z name f → f.Sound ∧ f.Valid ∧
    (∀ col ∈ f.columns, col.1 < 1) ∧
      ∃ a, q.graph.predecessors z = [a] ∧ ¬q.HasType a .store

theorem Rewired.valid (h : Rewired p q) (hq : q.graph.WellFormed) (hv : p.Valid) (hp : p.Sound) :
    q.Valid := by
  refine ⟨h.acyclic, fun z op hop => ?_⟩
  by_cases hfilter : op.type = .filter
  · obtain ⟨name, f, hf⟩ := HasType.isFilter ⟨op, hop, hfilter⟩
    obtain ⟨-, hvalid, hcols, a, ha, -⟩ := h.filters z name f hf
    obtain ⟨op', hop', ho, -⟩ := hf.operator?
    obtain rfl : op' = op := by simpa [hop] using hop'.symm
    refine ⟨fun hload => by simp [hfilter] at hload, fun _ => ⟨?_, fun _ => ?_, fun hstore => ?_,
      fun t keys hj => ?_, fun f' hf' => ?_⟩⟩
    · rw [hfilter, ha]; exact Nat.le_refl _
    · rw [ha]; exact Nat.le_refl _
    · simp [hfilter] at hstore
    · simp [ho] at hj
    · obtain rfl : f' = f := by simpa [ho, Operation.formulas] using hf'
      rw [ha]
      exact ⟨hvalid, hcols⟩
  · have hqt : q.HasType z op.type := ⟨op, hop, rfl⟩
    have hcore := (h.kept z op.type hfilter).2 hqt
    obtain ⟨moved, hpre, hmoved⟩ := h.inputs z op.type hfilter hqt
    obtain ⟨op', hop', hcore'⟩ : ∃ op', p.operator? z = some op' ∧ op'.core = op.core := by
      rw [Plan.core?, hop, Option.map_some] at hcore
      exact Option.map_eq_some_iff.mp hcore.symm
    have htype := type_eq_of_core hcore'
    have hlen : (q.graph.predecessors z).length = (p.graph.predecessors z).length := by
      rw [hpre, List.length_map]
    obtain ⟨hload, hother⟩ := hv.operators z op' hop'
    refine ⟨fun ht a ha => ?_, fun ht => ?_⟩
    · rw [hpre] at ha
      obtain ⟨a', ha', rfl⟩ := List.mem_map.mp ha
      have hstore := hload (htype.trans ht) a' ha'
      rcases hmoved a' ha' with heq | ⟨hno, -⟩
      · rw [heq, hasType_iff_core?, (h.kept a' .store (by simp)).1 hstore, ← hasType_iff_core?]
        exact hstore
      · exact absurd hstore hno
    · obtain ⟨h1, h2, h3, h4, h5⟩ := hother (htype ▸ ht)
      refine ⟨?_, ?_, fun hstore s hs => ?_, fun t keys hj => ?_, fun f' hf' => ?_⟩
      · rw [hlen, ← htype]; exact h1
      · rw [hlen, ← htype]; exact h2
      · have hzs := (hq.edge z s).mp hs
        obtain ⟨ts, hts⟩ := exists_hasType (hq.target hs)
        have hzstore : q.HasType z .store := ⟨op, hop, hstore⟩
        by_cases hsf : ts = .filter
        · subst hsf
          obtain ⟨name, f, hf⟩ := hts.isFilter
          obtain ⟨-, -, -, a, ha, hno⟩ := h.filters s name f hf
          obtain rfl : z = a := by simpa [ha] using hzs
          exact absurd hzstore hno
        · obtain ⟨moved', hpre', hmoved'⟩ := h.inputs s ts hsf hts
          rw [hpre'] at hzs
          obtain ⟨a, ha, hza⟩ := List.mem_map.mp hzs
          rcases hmoved' a ha with heq | ⟨-, hno⟩
          · obtain rfl : a = z := heq.symm.trans hza
            have := h3 (htype.trans hstore) s ((hp.wellFormed.edge a s).mpr ha)
            rw [hasType_iff_core?, (h.kept s ts hsf).2 hts, ← hasType_iff_core?]
            exact this
          · rw [hza] at hno
            exact absurd hzstore hno
      · rw [hlen]
        refine h4 t keys ?_
        have := congrArg Operator.operation hcore'
        rw [Operator.operation_core, Operator.operation_core, hj] at this
        cases ho : op'.operation <;> simp_all [Operation.withoutUids]
      · rw [hlen]
        exact h5 f' (formulas_eq_of_core hcore' ▸ hf')

theorem Rewired.formulasSound (h : Rewired p q) (hp : p.FormulasSound) : q.FormulasSound := by
  intro z op hop f hf
  by_cases hfilter : op.type = .filter
  · obtain ⟨name, f', hf'⟩ := HasType.isFilter ⟨op, hop, hfilter⟩
    obtain ⟨op', hop', ho, -⟩ := hf'.operator?
    obtain rfl : op' = op := by simpa [hop] using hop'.symm
    obtain rfl : f = f' := by simpa [ho, Operation.formulas] using hf
    exact (h.filters z name f hf').1
  · have hcore := (h.kept z op.type hfilter).2 ⟨op, hop, rfl⟩
    rw [Plan.core?, hop, Option.map_some] at hcore
    obtain ⟨op', hop', hcore'⟩ := Option.map_eq_some_iff.mp hcore.symm
    exact hp z op' hop' f (formulas_eq_of_core hcore' ▸ hf)

end Dataflow.Plan

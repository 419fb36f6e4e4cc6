import Dataflow.Proofs.Plan.Coherent
import Dataflow.Proofs.Plan.Edit

/-!
# What a check of a plan looks at

`Plan.validate` looks at the edges and at the operators without their derived schemas, the
identities that unions have chosen and the keys noted on loads. Plans that agree in what it looks at
(`SameChecks`) pass or fail together, even where the edges are in disorder. So a plan that passed
still does after schemas were asked for and keys were noted (`pruneMapKeys_validate`).
-/

namespace Dataflow

namespace Operation

/-- The operation without what a check of the plan passes over. -/
def checked : Operation → Operation
  | .load l => .load { l with requiredKeys := none }
  | o => o.withoutUids

@[simp] theorem type_checked (o : Operation) : o.checked.type = o.type := by
  cases o <;> rfl

@[simp] theorem formulas_checked (o : Operation) : o.checked.formulas = o.formulas := by
  cases o <;> rfl

@[simp] theorem checked_withoutUids (o : Operation) : o.withoutUids.checked = o.checked := by
  cases o <;> rfl

end Operation

namespace Operator

/-- The operator without what a check of the plan passes over. -/
def checked (op : Operator) : Operator :=
  { op with operation := op.operation.checked, memo := none }

@[simp] theorem type_checked (op : Operator) : op.checked.type = op.type :=
  Operation.type_checked op.operation

@[simp] theorem describe_checked (op : Operator) : op.checked.describe = op.describe := by
  rw [describe, describe, type_checked]
  rfl

@[simp] theorem formulas_checked (op : Operator) :
    op.checked.operation.formulas = op.operation.formulas :=
  Operation.formulas_checked op.operation

@[simp] theorem checked_core (op : Operator) : op.core.checked = op.checked := by
  rw [checked, operation_core, Operation.checked_withoutUids]
  rfl

end Operator

namespace Plan

open Dataflow.Graph

variable {p q r : Plan} {id : NodeId} {op op' : Operator}

/-- A check of one of the plans looks at the same as a check of the other. -/
structure SameChecks (p q : Plan) : Prop where
  ids : q.graph.ids = p.graph.ids
  successors : ∀ id, q.graph.successors id = p.graph.successors id
  predecessors : ∀ id, q.graph.predecessors id = p.graph.predecessors id
  checked : ∀ id, (q.operator? id).map Operator.checked = (p.operator? id).map Operator.checked

/-- Plans that differ in derived schemas only. -/
theorem Alike.sameChecks (h : Alike p q) : SameChecks p q where
  ids := h.ids
  successors := h.successors
  predecessors := h.predecessors
  checked id := by
    have := congrArg (Option.map Operator.checked) (h.core id)
    simpa [Option.map_map, Function.comp_def] using this

theorem typeOf_eq : p.typeOf id = match p.operator? id with
    | some op => .ok op.type
    | none => .error (.graph (.unknownNode id)) := by
  unfold typeOf operator operator? content
  cases p.graph.content? id <;> rfl

namespace SameChecks

theorem refl : SameChecks p p := ⟨rfl, fun _ => rfl, fun _ => rfl, fun _ => rfl⟩

theorem trans (h : SameChecks p q) (h' : SameChecks q r) : SameChecks p r where
  ids := h'.ids.trans h.ids
  successors id := (h'.successors id).trans (h.successors id)
  predecessors id := (h'.predecessors id).trans (h.predecessors id)
  checked id := (h'.checked id).trans (h.checked id)

theorem symm (h : SameChecks p q) : SameChecks q p :=
  ⟨h.ids.symm, fun id => (h.successors id).symm, fun id => (h.predecessors id).symm,
    fun id => (h.checked id).symm⟩

theorem contains (h : SameChecks p q) (id : NodeId) :
    q.graph.contains id = p.graph.contains id := by
  have := congrArg Option.isSome (h.checked id)
  rw [Option.isSome_map, Option.isSome_map] at this
  rw [← content?_isSome, ← content?_isSome]
  exact this

theorem operator? (h : SameChecks p q) (hop : q.operator? id = some op) :
    ∃ op', p.operator? id = some op' ∧ op'.checked = op.checked := by
  have := h.checked id
  rw [hop] at this
  exact Option.map_eq_some_iff.mp this.symm

theorem dataInputs (h : SameChecks p q) : q.dataInputs id = p.dataInputs id := by
  have hchecked := h.checked id
  rw [dataInputs_eq, dataInputs_eq, h.predecessors]
  cases hq : q.operator? id with
  | none =>
    rw [hq] at hchecked
    rw [Option.map_eq_none_iff.mp hchecked.symm]
  | some op =>
    obtain ⟨op', hp, heq⟩ := h.operator? hq
    rw [hp]
    dsimp only
    rw [← Operator.type_checked op, ← heq, Operator.type_checked]

/-! ## Checking one operator -/

theorem typeOf (h : SameChecks p q) : q.typeOf id = p.typeOf id := by
  rw [typeOf_eq, typeOf_eq]
  have hchecked := h.checked id
  cases hq : q.operator? id with
  | none =>
    rw [hq] at hchecked
    rw [Option.map_eq_none_iff.mp hchecked.symm]
  | some op =>
    obtain ⟨op', hp, heq⟩ := h.operator? hq
    rw [hp]
    show Except.ok op.type = Except.ok op'.type
    rw [← Operator.type_checked op, ← heq, Operator.type_checked]

theorem checkLoadInputs (h : SameChecks p q) (hop : op'.describe = op.describe) :
    ∀ l : List NodeId, q.checkLoadInputs op l = p.checkLoadInputs op' l := by
  intro l
  induction l with
  | nil => rfl
  | cons x l ih =>
    unfold Plan.checkLoadInputs
    rw [h.typeOf, hop, ih]

theorem checkStoreOutputs (h : SameChecks p q) (hop : op'.describe = op.describe) :
    ∀ l : List NodeId, q.checkStoreOutputs op l = p.checkStoreOutputs op' l := by
  intro l
  induction l with
  | nil => rfl
  | cons x l ih =>
    unfold Plan.checkStoreOutputs
    rw [h.typeOf, hop, ih]

theorem checkFormulas (hop : op'.describe = op.describe) (inputs : Nat) : ∀ l : List Formula,
    Plan.checkFormulas op inputs l = Plan.checkFormulas op' inputs l := by
  intro l
  induction l with
  | nil => rfl
  | cons f l ih =>
    unfold Plan.checkFormulas
    rw [hop, ih]

theorem checkJoin (hop : op'.checked = op.checked) (inputs : Nat) :
    Plan.checkJoin op inputs = Plan.checkJoin op' inputs := by
  have hdescribe : op'.describe = op.describe := by
    rw [← Operator.describe_checked, hop, Operator.describe_checked]
  have hoperation : op'.operation.checked = op.operation.checked := congrArg Operator.operation hop
  unfold Plan.checkJoin
  rw [hdescribe]
  cases ho : op.operation <;> cases ho' : op'.operation <;>
    simp_all [Operation.checked, Operation.withoutUids]

/-- The check of one operator ends alike, down to its error. -/
theorem checkOperator (h : SameChecks p q) (hop : op'.checked = op.checked) :
    q.checkOperator id op = p.checkOperator id op' := by
  have hdescribe : op'.describe = op.describe := by
    rw [← Operator.describe_checked, hop, Operator.describe_checked]
  have htype : op'.type = op.type := by
    rw [← Operator.type_checked, hop, Operator.type_checked]
  have hformulas : op'.operation.formulas = op.operation.formulas := by
    rw [← Operator.formulas_checked, hop, Operator.formulas_checked]
  unfold Plan.checkOperator
  dsimp only
  rw [htype, hdescribe, hformulas, show q.predecessors id = p.predecessors id from
    h.predecessors id, show q.successors id = p.successors id from h.successors id,
    h.checkLoadInputs hdescribe, h.checkStoreOutputs hdescribe, checkJoin hop,
    checkFormulas hdescribe]

/-! ## Checking the plan -/

theorem mem_toList (h : SameChecks p q) (hm : (id, op) ∈ q.toList) :
    ∃ op', (id, op') ∈ p.toList ∧ op'.checked = op.checked := by
  obtain ⟨hid, hop⟩ := Graph.mem_toList.mp hm
  obtain ⟨op', hop', heq⟩ := h.operator? hop
  exact ⟨op', Graph.mem_toList.mpr ⟨h.ids ▸ hid, hop'⟩, heq⟩

theorem validate (h : SameChecks p q) (hp : p.validate = .ok ()) : q.validate = .ok () := by
  unfold Plan.validate at hp ⊢
  rw [Pass.except_bind_unit_eq_ok, orError_eq_ok, checkConsistency_eq_ok,
    Pass.except_bind_unit_eq_ok, checkOperators_eq_ok] at hp ⊢
  obtain ⟨⟨houts, hins⟩, horder, hops⟩ := hp
  refine ⟨⟨fun a b hb => ?_, fun b a ha => ?_⟩, ?_, fun id op hm => ?_⟩
  · rw [h.successors] at hb
    rw [h.contains, h.predecessors]
    exact houts a b hb
  · rw [h.predecessors] at ha
    rw [h.successors]
    exact hins b a ha
  · rw [topologicalOrder_eq h.ids h.contains h.successors h.predecessors]
    exact horder
  · obtain ⟨op', hm', heq⟩ := h.mem_toList hm
    rw [h.checkOperator heq]
    exact hops id op' hm'

end SameChecks

/-! ## What is asked and noted in between -/

theorem derived_sameChecks : KeptByDeriving (SameChecks p) :=
  .of_ok fun _ _ _ hq hrun => hq.trans (Alike.deriveOne hrun).sameChecks

/-- A change of an operator that a check passes over. -/
theorem keeps_update {change : Operator → Operator} (h : ∀ op, (change op).checked = op.checked) :
    Pass.Keeps (SameChecks p) (update id change) := by
  intro q hq
  unfold Plan.update Pass.after
  rw [Pass.bind_of_ok Pass.get_apply]
  by_cases hid : q.contains id = true
  · rw [if_pos hid]
    have hinv : SameChecks q (q.invalidate id) := Alike.invalidate.sameChecks
    refine hq.trans (hinv.trans ⟨rfl, fun _ => successors_update, fun _ => predecessors_update,
      fun x => ?_⟩)
    show ((((q.invalidate id).graph.update id change).content? x).map Operator.checked) = _
    rw [content?_update]
    split
    · rw [Option.map_map]
      exact Option.map_congr fun op _ => h op
    · rfl
  · rw [if_neg hid]
    exact hq

theorem keeps_annotate (id : NodeId) (table : KeyTable) :
    Pass.Keeps (SameChecks p) (annotate id table) := by
  refine keeps_update fun op => ?_
  cases ho : op.operation <;> simp [Operator.checked, Operation.checked, ho]

theorem pruneMapKeys_validate {n : Nat} (hp : p.validate = .ok ())
    (hrun : pruneMapKeys p = .ok n q) : q.validate = .ok () := by
  have hkeeps : Pass.Keeps (SameChecks p) pruneMapKeys :=
    derived_sameChecks.pruneMapKeys keeps_annotate
  exact (hkeeps.of_ok .refl hrun).validate hp

end Plan

end Dataflow

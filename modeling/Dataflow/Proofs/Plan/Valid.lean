import Dataflow.Plan.Text
import Dataflow.Plan.Validate
import Dataflow.Proofs.Formula.Unfolding
import Dataflow.Proofs.Graph.Order

/-!
# Valid plans by clauses

`Plan.validate` succeeds on a well-formed plan exactly if the plan is `Valid`: it has no cycle, and
each operator has inputs in the right number and of the right kind and formulas that are valid and
read connected inputs only (`validate_eq_ok`). Validity does not look at derived schemas nor at the
identities that unions have chosen: plans that differ in nothing else are `Alike`.
-/

namespace Dataflow

namespace Operation

/-- The operation without the identities that a union has chosen. -/
def withoutUids : Operation → Operation
  | .union _ => .union []
  | o => o

@[simp] theorem type_withoutUids (o : Operation) : o.withoutUids.type = o.type := by
  cases o <;> rfl

@[simp] theorem formulas_withoutUids (o : Operation) : o.withoutUids.formulas = o.formulas := by
  cases o <;> rfl

@[simp] theorem location?_withoutUids (o : Operation) :
    o.withoutUids.location? = o.location? := by
  cases o <;> rfl

theorem withoutUids_eq_store {o : Operation} {location : String} :
    o.withoutUids = .store location ↔ o = .store location := by
  cases o <;> simp [withoutUids]

end Operation

/-- What an operator is, apart from what deriving its schema has left in it. -/
def Operator.core (op : Operator) : Operator :=
  { op with operation := op.operation.withoutUids, memo := none }

namespace Operator

@[simp] theorem type_core (op : Operator) : op.core.type = op.type :=
  Operation.type_withoutUids op.operation

@[simp] theorem name_core (op : Operator) : op.core.name = op.name := rfl

@[simp] theorem operation_core (op : Operator) :
    op.core.operation = op.operation.withoutUids := rfl

@[simp] theorem describe_core (op : Operator) : op.core.describe = op.describe := by
  rw [describe, describe, type_core, name_core]

@[simp] theorem core_forget (op : Operator) : op.forget.core = op.core := rfl

end Operator

namespace Plan

open Dataflow.Graph

variable {p q r : Plan} {id x : NodeId} {op : Operator} {inputs : Nat}

/-- Two plans have the same operators at the same places, derived schemas apart. -/
structure Alike (p q : Plan) : Prop where
  ids : q.graph.ids = p.graph.ids
  nextKey : q.graph.nextKey = p.graph.nextKey
  successors : ∀ id, q.graph.successors id = p.graph.successors id
  predecessors : ∀ id, q.graph.predecessors id = p.graph.predecessors id
  core : ∀ id, (q.operator? id).map Operator.core = (p.operator? id).map Operator.core

namespace Alike

theorem refl : Alike p p := ⟨rfl, rfl, fun _ => rfl, fun _ => rfl, fun _ => rfl⟩

theorem trans (h : Alike p q) (h' : Alike q r) : Alike p r where
  ids := h'.ids.trans h.ids
  nextKey := h'.nextKey.trans h.nextKey
  successors id := (h'.successors id).trans (h.successors id)
  predecessors id := (h'.predecessors id).trans (h.predecessors id)
  core id := (h'.core id).trans (h.core id)

theorem symm (h : Alike p q) : Alike q p where
  ids := h.ids.symm
  nextKey := h.nextKey.symm
  successors id := (h.successors id).symm
  predecessors id := (h.predecessors id).symm
  core id := (h.core id).symm

theorem operator? (h : Alike p q) (hop : q.operator? id = some op) :
    ∃ op', p.operator? id = some op' ∧ op'.core = op.core := by
  have := h.core id
  rw [hop] at this
  exact Option.map_eq_some_iff.mp this.symm

theorem contains (h : Alike p q) : q.graph.contains id = p.graph.contains id := by
  have := congrArg Option.isSome (h.core id)
  rw [Option.isSome_map, Option.isSome_map] at this
  rw [← content?_isSome, ← content?_isSome]
  exact this

theorem wellFormed (h : Alike p q) (hp : p.graph.WellFormed) : q.graph.WellFormed :=
  hp.congr h.ids (fun _ => h.contains) h.successors h.predecessors

theorem keysBelow (h : Alike p q) (hp : p.graph.KeysBelow) : q.graph.KeysBelow :=
  hp.congr h.ids h.nextKey

theorem acyclic (h : Alike p q) (hp : p.graph.Acyclic) : q.graph.Acyclic := by
  obtain ⟨rank, hrank⟩ := hp
  exact ⟨rank, fun a b hb => hrank a b (h.successors a ▸ hb)⟩

end Alike

theorem type_eq_of_core {a b : Operator} (h : a.core = b.core) : a.type = b.type := by
  rw [← Operator.type_core, h, Operator.type_core]

theorem formulas_eq_of_core {a b : Operator} (h : a.core = b.core) :
    a.operation.formulas = b.operation.formulas := by
  rw [← Operation.formulas_withoutUids, ← Operator.operation_core, h, Operator.operation_core,
    Operation.formulas_withoutUids]

theorem name_eq_of_core {a b : Operator} (h : a.core = b.core) : a.name = b.name := by
  rw [← Operator.name_core, h, Operator.name_core]

/-! ## Lookups -/

theorem operator_eq_ok : p.operator id = .ok op ↔ p.operator? id = some op := by
  unfold operator operator?
  rw [orError_eq_ok, content_eq_ok]

theorem typeOf_eq_ok {t : OperatorType} :
    p.typeOf id = .ok t ↔ ∃ op, p.operator? id = some op ∧ op.type = t := by
  unfold typeOf
  rw [Pass.except_bind_eq_ok]
  simp only [operator_eq_ok, pure, Except.pure, Except.ok.injEq]

theorem contains_of_operator? (h : p.operator? id = some op) : p.graph.contains id = true :=
  contains_of_content? h

theorem exists_operator? (h : p.graph.contains id = true) : ∃ op, p.operator? id = some op :=
  exists_content? h

/-! ## Clauses of validity -/

/-- The operator exists and has the given type. -/
def HasType (p : Plan) (id : NodeId) (t : OperatorType) : Prop :=
  ∃ op, p.operator? id = some op ∧ op.type = t

theorem HasType.unique {t t' : OperatorType} (h : p.HasType id t) (h' : p.HasType id t') :
    t = t' := by
  obtain ⟨op, hop, rfl⟩ := h
  obtain ⟨op', hop', rfl⟩ := h'
  rw [hop] at hop'
  rw [Option.some.inj hop']

theorem exists_hasType (h : p.graph.contains id = true) : ∃ t, p.HasType id t := by
  obtain ⟨op, hop⟩ := exists_operator? h
  exact ⟨op.type, op, hop, rfl⟩

/-- A formula is valid and reads only the given number of inputs. -/
structure FormulaFits (inputs : Nat) (f : Formula) : Prop where
  valid : f.Valid
  columns : ∀ c ∈ f.columns, c.1 < inputs

/-- What `checkOperator` checks of an operator that is no load. -/
structure InputsFit (p : Plan) (id : NodeId) (op : Operator) : Prop where
  enough : op.type.minInputs ≤ (p.graph.predecessors id).length
  single : op.type.allowsMultipleInputs = false → (p.graph.predecessors id).length ≤ 1
  stored : op.type = .store → ∀ s ∈ p.graph.successors id, p.HasType s .load
  joined : ∀ t keys, op.operation = .join t keys → keys.length = (p.graph.predecessors id).length
  formulas : ∀ f ∈ op.operation.formulas, FormulaFits (p.graph.predecessors id).length f

/-- What `checkOperator` checks. -/
structure OperatorFits (p : Plan) (id : NodeId) (op : Operator) : Prop where
  load : op.type = .load → ∀ q ∈ p.graph.predecessors id, p.HasType q .store
  other : op.type ≠ .load → InputsFit p id op

/-- What `validate` checks. -/
structure Valid (p : Plan) : Prop where
  acyclic : p.graph.Acyclic
  operators : ∀ id op, p.operator? id = some op → OperatorFits p id op

theorem checkLoadInputs_eq_ok : ∀ {l : List NodeId},
    p.checkLoadInputs op l = .ok () ↔ ∀ q ∈ l, p.HasType q .store
  | [] => by simp [checkLoadInputs]
  | q :: l => by
    have ih := checkLoadInputs_eq_ok (l := l)
    unfold checkLoadInputs
    rw [Pass.except_bind_eq_ok]
    simp only [typeOf_eq_ok, List.forall_mem_cons, ← ih]
    constructor
    · rintro ⟨t, ht, h⟩
      split at h
      · exact absurd h (by simp)
      · rename_i hstore
        obtain rfl : t = .store := by simpa using hstore
        exact ⟨ht, h⟩
    · rintro ⟨ht, h⟩
      exact ⟨.store, ht, by simpa using h⟩

theorem checkStoreOutputs_eq_ok : ∀ {l : List NodeId},
    p.checkStoreOutputs op l = .ok () ↔ ∀ s ∈ l, p.HasType s .load
  | [] => by simp [checkStoreOutputs]
  | s :: l => by
    have ih := checkStoreOutputs_eq_ok (l := l)
    unfold checkStoreOutputs
    rw [Pass.except_bind_eq_ok]
    simp only [typeOf_eq_ok, List.forall_mem_cons, ← ih]
    constructor
    · rintro ⟨t, ht, h⟩
      split at h
      · exact absurd h (by simp)
      · rename_i hload
        obtain rfl : t = .load := by simpa using hload
        exact ⟨ht, h⟩
    · rintro ⟨ht, h⟩
      exact ⟨.load, ht, by simpa using h⟩

theorem checkFormulas_eq_ok : ∀ {l : List Formula}, (∀ f ∈ l, f.Sound) →
    (checkFormulas op inputs l = .ok () ↔ ∀ f ∈ l, FormulaFits inputs f)
  | [], _ => by simp [checkFormulas]
  | f :: l, hs => by
    obtain ⟨hf, hl⟩ := List.forall_mem_cons.mp hs
    have ih := checkFormulas_eq_ok (l := l) hl
    unfold checkFormulas
    rw [Pass.except_bind_eq_ok]
    simp only [Formula.validate_eq_ok hf, List.forall_mem_cons, ← ih, exists_const]
    constructor
    · rintro ⟨hv, h⟩
      split at h
      · exact absurd h (by simp)
      · rename_i hnone
        exact ⟨⟨hv, by simpa using hnone⟩, h⟩
    · rintro ⟨⟨hv, hcols⟩, h⟩
      refine ⟨hv, ?_⟩
      have hnone : f.columns.find? (fun c => decide (c.1 ≥ inputs)) = none := by
        rw [List.find?_eq_none]
        intro c hc
        have := hcols c hc
        simp; omega
      rw [hnone]
      exact h

theorem checkJoin_eq_ok : checkJoin op inputs = .ok () ↔
    ∀ t keys, op.operation = .join t keys → keys.length = inputs := by
  unfold checkJoin
  cases hop : op.operation <;> simp

theorem checkOperator_eq_ok (hs : ∀ f ∈ op.operation.formulas, f.Sound) :
    p.checkOperator id op = .ok () ↔ OperatorFits p id op := by
  unfold checkOperator
  dsimp only
  by_cases hload : op.type = .load
  · rw [if_pos hload, checkLoadInputs_eq_ok]
    exact ⟨fun h => ⟨fun _ => h, fun hne => absurd hload hne⟩, fun h => h.load hload⟩
  · rw [if_neg hload]
    have hiff : OperatorFits p id op ↔ InputsFit p id op :=
      ⟨fun h => h.other hload, fun h => ⟨fun he => absurd he hload, fun _ => h⟩⟩
    rw [hiff]
    by_cases hmin : (p.predecessors id).length < op.type.minInputs
    · rw [if_pos hmin]
      refine ⟨fun h => by simp at h, fun h => absurd h.enough (Nat.not_le.mpr hmin)⟩
    rw [if_neg hmin]
    by_cases hmany : (decide ((p.predecessors id).length > 1) &&
        !op.type.allowsMultipleInputs) = true
    · rw [if_pos hmany]
      refine ⟨fun h => by simp at h, fun h => ?_⟩
      simp only [Bool.and_eq_true, decide_eq_true_eq, Bool.not_eq_true'] at hmany
      exact absurd (h.single hmany.2) (Nat.not_le.mpr hmany.1)
    rw [if_neg hmany]
    have hsingle : op.type.allowsMultipleInputs = false →
        (p.graph.predecessors id).length ≤ 1 := fun hfalse => by
      by_contra hlt
      have hlt : (p.predecessors id).length > 1 := Nat.lt_of_not_le hlt
      exact hmany (by simp [hfalse, hlt])
    by_cases hstore : op.type = .store
    · rw [if_pos hstore]
      rw [Pass.except_bind_unit_eq_ok, Pass.except_bind_unit_eq_ok, checkStoreOutputs_eq_ok,
        checkJoin_eq_ok, checkFormulas_eq_ok hs]
      constructor
      · rintro ⟨hstored, hjoin, hformulas⟩
        exact ⟨Nat.le_of_not_lt hmin, hsingle, fun _ => hstored, hjoin, hformulas⟩
      · exact fun h => ⟨h.stored hstore, h.joined, h.formulas⟩
    · rw [if_neg hstore]
      rw [Pass.except_bind_unit_eq_ok, checkJoin_eq_ok, checkFormulas_eq_ok hs]
      constructor
      · rintro ⟨hjoin, hformulas⟩
        exact ⟨Nat.le_of_not_lt hmin, hsingle, fun he => absurd he hstore, hjoin, hformulas⟩
      · exact fun h => ⟨h.joined, h.formulas⟩

theorem checkOperators_eq_ok : ∀ {l : List (NodeId × Operator)},
    p.checkOperators l = .ok () ↔ ∀ id op, (id, op) ∈ l → p.checkOperator id op = .ok ()
  | [] => by simp [checkOperators]
  | (id, op) :: l => by
    unfold checkOperators
    rw [Pass.except_bind_unit_eq_ok, checkOperators_eq_ok]
    constructor
    · rintro ⟨h, hl⟩ id' op' hm
      rcases List.mem_cons.mp hm with heq | hm
      · obtain ⟨rfl, rfl⟩ := Prod.mk.inj heq; exact h
      · exact hl id' op' hm
    · intro h
      exact ⟨h id op (by simp), fun id' op' hm => h id' op' (List.mem_cons_of_mem _ hm)⟩

/-- The formulas of all operators are sound. -/
def FormulasSound (p : Plan) : Prop :=
  ∀ id op, p.operator? id = some op → ∀ f ∈ op.operation.formulas, f.Sound

theorem validate_eq_ok (h : p.graph.WellFormed) (hf : p.FormulasSound) :
    p.validate = .ok () ↔ p.Valid := by
  unfold validate
  have hdiscard : ∀ {γ : Type} {r : Result γ}, discard r = .ok () ↔ ∃ c, r = .ok c := by
    intro γ r
    cases r <;> simp [discard, Functor.discard, Functor.mapConst, Except.map]
  simp only [Pass.except_bind_eq_ok, orError_eq_ok, h.checkConsistency, true_and, exists_const,
    hdiscard, exists_topologicalOrder_iff h, checkOperators_eq_ok]
  have hmem : ∀ id op, (id, op) ∈ p.toList ↔ p.operator? id = some op := fun id op =>
    h.mem_toList_iff
  constructor
  · rintro ⟨hac, hops⟩
    exact ⟨hac, fun id op hop => (checkOperator_eq_ok (hf id op hop)).mp
      (hops id op ((hmem id op).mpr hop))⟩
  · intro hv
    refine ⟨hv.acyclic, fun id op hm => ?_⟩
    have hop := (hmem id op).mp hm
    exact (checkOperator_eq_ok (hf id op hop)).mpr (hv.operators id op hop)

/-! ## Plans that differ in derived schemas only -/

theorem Alike.hasType (h : Alike p q) {t : OperatorType} (hq : q.HasType id t) :
    p.HasType id t := by
  obtain ⟨op, hop, ht⟩ := hq
  obtain ⟨op', hop', hcore⟩ := h.operator? hop
  exact ⟨op', hop', (type_eq_of_core hcore).trans ht⟩

theorem Alike.formulasSound (h : Alike p q) (hp : p.FormulasSound) : q.FormulasSound := by
  intro id op hop f hf
  obtain ⟨op', hop', hcore⟩ := h.operator? hop
  exact hp id op' hop' f (formulas_eq_of_core hcore ▸ hf)

/-- A plan is valid if it is connected like a valid one, by operators that differ in nothing that
`validate` looks at. -/
theorem Valid.transfer (hv : p.Valid) (hac : q.graph.Acyclic)
    (hsuc : ∀ id, q.graph.successors id = p.graph.successors id)
    (hpre : ∀ id, q.graph.predecessors id = p.graph.predecessors id)
    (htypes : ∀ id t, p.HasType id t → q.HasType id t)
    (hops : ∀ id op, q.operator? id = some op → ∃ op', p.operator? id = some op' ∧
      op'.type = op.type ∧ op'.operation.formulas = op.operation.formulas ∧
      ∀ t keys, op.operation = .join t keys → op'.operation = .join t keys) : q.Valid := by
  refine ⟨hac, fun id op hop => ?_⟩
  obtain ⟨op', hop', htype, hformulas, hjoin⟩ := hops id op hop
  obtain ⟨hload, hother⟩ := hv.operators id op' hop'
  refine ⟨fun ht x hx => ?_, fun ht => ?_⟩
  · rw [hpre] at hx
    exact htypes x _ (hload (htype.trans ht) x hx)
  · obtain ⟨h1, h2, h3, h4, h5⟩ := hother (htype ▸ ht)
    refine ⟨?_, ?_, fun ht s hs => ?_, fun t keys hj => ?_, fun f hf => ?_⟩
    · rw [hpre, ← htype]; exact h1
    · rw [hpre, ← htype]; exact h2
    · rw [hsuc] at hs
      exact htypes s _ (h3 (htype.trans ht) s hs)
    · rw [hpre]
      exact h4 t keys (hjoin t keys hj)
    · rw [hpre]
      exact h5 f (hformulas ▸ hf)

theorem Alike.valid (h : Alike p q) (hp : p.Valid) : q.Valid := by
  refine hp.transfer (h.acyclic hp.acyclic) h.successors h.predecessors
    (fun id t ht => h.symm.hasType ht) fun id op hop => ?_
  obtain ⟨op', hop', hcore⟩ := h.operator? hop
  refine ⟨op', hop', type_eq_of_core hcore, formulas_eq_of_core hcore, fun t keys hj => ?_⟩
  have := congrArg Operator.operation hcore
  rw [Operator.operation_core, Operator.operation_core, hj] at this
  cases ho : op'.operation <;> simp_all [Operation.withoutUids]

end Plan

/-!
## The text of a plan

A plan without cycles has a text: every operator has its line.
-/

namespace Plan

variable {p : Plan}

theorem exists_linesOf (order : List NodeId) : ∀ {l : List (NodeId × Nat)},
    (∀ x ∈ l, p.graph.contains x.1 = true) → ∃ text, p.linesOf order l = .ok text
  | [], _ => ⟨"", rfl⟩
  | x :: l, h => by
    obtain ⟨text, htext⟩ := exists_linesOf order fun y hy => h y (List.mem_cons_of_mem x hy)
    obtain ⟨op, hop⟩ := exists_operator? (h x (by simp))
    unfold linesOf
    rw [operator_eq_ok.mpr hop, Pass.except_ok_bind, htext]
    exact ⟨_, rfl⟩

theorem exists_canonicalText (hwf : p.graph.WellFormed) (hac : p.graph.Acyclic) :
    ∃ text, p.canonicalText = .ok text := by
  obtain ⟨order, horder⟩ := Graph.exists_topologicalOrder hwf hac
  obtain ⟨-, hmem, -⟩ := Graph.topologicalOrder_spec hwf horder
  have hcontains : ∀ x ∈ order.zipIdx, p.graph.contains x.1 = true := fun x hx =>
    (hmem x.1).mp (List.fst_mem_of_mem_zipIdx hx)
  obtain ⟨text, htext⟩ := exists_linesOf order hcontains
  refine ⟨text, ?_⟩
  unfold canonicalText
  rw [horder]
  exact htext

theorem fingerprint_of_canonicalText {text : String} (h : p.canonicalText = .ok text) :
    p.fingerprint = .ok (.ofText text) := by
  unfold fingerprint
  rw [h]
  rfl

end Plan

end Dataflow

import Dataflow.Proofs.Plan.History
import Dataflow.Proofs.Plan.MapKeys

/-!
# Schemas with other keys noted

Noting on a load which keys are needed makes the schemas behind it be forgotten, but asking for them
again gives what they were: deriving a schema looks at no noted keys (`Noted.rederive`), and unions
keep the identities that they have chosen.
-/

namespace Dataflow

open Plan Dataflow.Graph

variable {p q r : Plan} {id x z : NodeId} {op : Operator} {s : Option Schema}

/-- The operation without the keys that are noted on a load. -/
def Operation.withoutKeys : Operation → Operation
  | .load l => .load { l with requiredKeys := none }
  | o => o

/-- The operator without its derived schema and without noted keys. -/
def Operator.bare (op : Operator) : Operator :=
  { op with operation := op.operation.withoutKeys, memo := none }

theorem Operation.eq_of_withoutKeys {o o' : Operation} (h : o'.withoutKeys = o.withoutKeys)
    (ho : ∀ l, o ≠ .load l) : o' = o := by
  cases o <;> cases o' <;> simp_all [withoutKeys]

/-- Deriving a schema looks at no keys. -/
theorem Operator.deriveSchema_bare {op' : Operator} (h : op'.bare = op.bare) {inputs : Expr.Inputs}
    {names : List (Option String)} {supply supply' : UidSupply} {o : Operation}
    (hrun : op.deriveSchema inputs names supply = .ok (s, o, supply')) :
    ∃ o', op'.deriveSchema inputs names supply = .ok (s, o', supply') ∧
      o'.withoutKeys = o.withoutKeys := by
  obtain ⟨name, operation, memo⟩ := op
  obtain ⟨name', operation', memo'⟩ := op'
  simp only [Operator.bare, Operator.mk.injEq, and_true] at h
  obtain ⟨rfl, h⟩ := h
  by_cases hload : ∃ l, operation = .load l
  · obtain ⟨l, rfl⟩ := hload
    obtain ⟨rfl, rfl, rfl⟩ : l.declared = s ∧ .load l = o ∧ supply = supply' := by
      simpa [Operator.deriveSchema] using hrun
    cases operation' <;> simp [Operation.withoutKeys] at h
    next l' =>
      exact ⟨.load l', by simp [Operator.deriveSchema, h], by simp [Operation.withoutKeys, h]⟩
  · obtain rfl := Operation.eq_of_withoutKeys h fun l hl => hload ⟨l, hl⟩
    exact ⟨o, (deriveSchema_congr rfl).trans hrun, rfl⟩

namespace Plan

/-- The plans differ in derived schemas and in the keys that are noted on loads. -/
structure Noted (p q : Plan) : Prop where
  predecessors : ∀ z, q.graph.predecessors z = p.graph.predecessors z
  uids : q.uids = p.uids
  bare : ∀ z, (q.operator? z).map Operator.bare = (p.operator? z).map Operator.bare

theorem Noted.refl : Noted p p := ⟨fun _ => rfl, rfl, fun _ => rfl⟩

theorem Noted.trans (h : Noted p q) (h' : Noted q r) : Noted p r :=
  ⟨fun z => (h'.predecessors z).trans (h.predecessors z), h'.uids.trans h.uids,
    fun z => (h'.bare z).trans (h.bare z)⟩

theorem Noted.nameOf (h : Noted p q) : q.nameOf z = p.nameOf z := by
  have hbare := congrArg (Option.bind · Operator.name) (h.bare z)
  simp only [Option.bind_map] at hbare
  exact hbare

theorem Noted.dataInputs (h : Noted p q) (z : NodeId) : q.dataInputs z = p.dataInputs z := by
  have htype : ∀ op : Operator, op.bare.type = op.type := fun op => by
    cases ho : op.operation <;> simp [Operator.type, Operator.bare, Operation.withoutKeys, ho,
      Operation.type]
  have hbare := congrArg (Option.map Operator.type) (h.bare z)
  simp only [Option.map_map, Function.comp_def, htype] at hbare
  rw [dataInputs_eq, dataInputs_eq, h.predecessors]
  cases hp : p.operator? z <;> cases hq : q.operator? z <;> simp_all

theorem Noted.operator (h : Noted p q) (hop : p.operator? id = some op) :
    ∃ op', q.operator? id = some op' ∧ op'.bare = op.bare := by
  have hbare := h.bare id
  rw [hop] at hbare
  exact Option.map_eq_some_iff.mp hbare

theorem Noted.withOperation (h : Noted p q) {o o' : Operation} {supply : UidSupply}
    (ho : o'.withoutKeys = o.withoutKeys) :
    Noted (p.withOperation id o supply) (q.withOperation id o' supply) := by
  have hbare : ∀ z, ((q.withOperation id o' supply).operator? z).map Operator.bare =
      ((p.withOperation id o supply).operator? z).map Operator.bare := fun z => by
    rw [operator?_withOperation, operator?_withOperation]
    split
    · have := h.bare z
      cases hp : p.operator? z <;> cases hq : q.operator? z <;>
        simp_all [Operator.bare]
    · exact h.bare z
  refine ⟨fun z => ?_, rfl, hbare⟩
  exact predecessors_update.trans ((h.predecessors z).trans predecessors_update.symm)

/-- The schemas of the inputs come to the same if that of each does. -/
theorem Noted.mapM {f : NodeId → Edit (Option Schema)}
    (hf : ∀ {x s p q p'}, Noted p q → f x p = .ok s p' → ∃ q', f x q = .ok s q' ∧ Noted p' q') :
    ∀ {l : List NodeId} {ss : List (Option Schema)} {p q p' : Plan}, Noted p q →
      l.mapM f p = .ok ss p' → ∃ q', l.mapM f q = .ok ss q' ∧ Noted p' q' := by
  intro l
  induction l with
  | nil =>
    intro ss p q p' h hrun
    rw [List.mapM_nil] at hrun ⊢
    obtain ⟨rfl, rfl⟩ : [] = ss ∧ p = p' := by simpa using hrun
    exact ⟨q, rfl, h⟩
  | cons x l ih =>
    intro ss p q p' h hrun
    rw [List.mapM_cons] at hrun ⊢
    obtain ⟨s, p₁, hx, hrun⟩ := Pass.bind_eq_ok.mp hrun
    obtain ⟨rest, p₂, hl, hrun⟩ := Pass.bind_eq_ok.mp hrun
    obtain ⟨rfl, rfl⟩ : s :: rest = ss ∧ p₂ = p' := by simpa using hrun
    obtain ⟨q₁, hx', h₁⟩ := hf h hx
    obtain ⟨q₂, hl', h₂⟩ := ih h₁ hl
    exact ⟨q₂, by rw [Pass.bind_of_ok hx', Pass.bind_of_ok hl']; rfl, h₂⟩

/-- Deriving anew gives the same with other keys noted. -/
theorem Noted.rederive {n : Nat} : ∀ {id : NodeId} {s : Option Schema} {p q p' : Plan}, Noted p q →
    rederive n id p = .ok s p' → ∃ q', rederive n id q = .ok s q' ∧ Noted p' q' := by
  induction n with
  | zero =>
    intro id s p q p' h hrun
    simp [Plan.rederive] at hrun
  | succ n ih =>
    intro id s p q p' h hrun
    unfold Plan.rederive at hrun
    rw [Pass.bind_of_ok Pass.get_apply] at hrun
    obtain ⟨schemas, p₁, hins, hrun⟩ := Pass.bind_eq_ok.mp hrun
    rw [Pass.bind_of_ok Pass.get_apply] at hrun
    obtain ⟨op, hop, hrun⟩ := bind_ofResult_eq_ok.mp hrun
    obtain ⟨⟨t, o, supply⟩, hderive, hrun⟩ := bind_ofResult_eq_ok.mp hrun
    dsimp only at hrun
    rw [Pass.bind_of_ok Pass.set_apply] at hrun
    obtain ⟨rfl, rfl⟩ : t = s ∧ p₁.withOperation id o supply = p' := by simpa using hrun
    obtain ⟨q₁, hins', h₁⟩ := Noted.mapM (f := Plan.rederive n) (fun h hx => ih h hx) h hins
    obtain ⟨op', hop', hbare⟩ := h₁.operator (operator_eq_ok.mp hop)
    obtain ⟨o', hderive', ho⟩ := Operator.deriveSchema_bare hbare hderive
    refine ⟨q₁.withOperation id o' supply, ?_, h₁.withOperation ho⟩
    have hnames : (q₁.dataInputs id).map q₁.nameOf = (p₁.dataInputs id).map p₁.nameOf := by
      rw [h₁.dataInputs]
      exact List.map_congr_left fun x _ => h₁.nameOf
    rw [rederive_succ .refl (by rwa [h.dataInputs]) hop', hnames, h₁.uids, hderive']

/-- The plans give the same schemas, as far as they are derived in the one. -/
def ShowsDerived (r q : Plan) : Prop :=
  ∀ x s, r.memoOf x = some s → Pass.result? (schema x) q = some s

/-- Whatever an operator is derived to keeps its schema when keys are noted. -/
theorem Noted.showsDerived (h : Noted r q) (hr : r.Ready) (hq : q.Ready)
    (hsize : q.size = r.size) : ShowsDerived r q := by
  intro x s hs
  obtain ⟨r', hrun, -⟩ := hr.current.derived x s hs
  obtain ⟨q', hrun', -⟩ := h.rederive hrun
  have hends := hq.current.requests x
  rw [hsize, hrun'] at hends
  unfold Pass.result?
  cases hasked : schema x q with
  | error e t =>
    rw [hasked] at hends
    exact hends.elim
  | ok s' t =>
    rw [hasked] at hends
    rw [hends.1]

theorem noted_invalidate : Noted p (p.invalidate id) where
  predecessors := Alike.invalidate.predecessors
  uids := rfl
  bare z := by
    change ((p.forgetAt _).operator? z).map Operator.bare = _
    rw [operator?_forgetAt]
    split
    · rw [Option.map_map]
      rfl
    · rfl

theorem noted_of_annotate {table : KeyTable} {u : Unit} (hrun : annotate id table p = .ok u q) :
    Noted p q := by
  obtain ⟨note, hnote, -, -, hload, hrest⟩ := annotate_eq_update id table
  rw [hnote] at hrun
  unfold update at hrun
  rw [Pass.bind_of_ok Pass.get_apply] at hrun
  cases hid : p.contains id with
  | false => simp [hid, Pass.bind_eq_ok] at hrun
  | true =>
    obtain rfl : { p.invalidate id with graph := (p.invalidate id).graph.update id note } = q := by
      simpa [hid] using hrun
    refine noted_invalidate.trans ⟨fun z => predecessors_update, rfl, fun z => ?_⟩
    have hop :
        operator? { p.invalidate id with graph := (p.invalidate id).graph.update id note } z =
        if z = id then ((p.invalidate id).operator? z).map note
        else (p.invalidate id).operator? z :=
      content?_update
    rw [hop]
    split
    · rw [Option.map_map]
      congr 1
      funext op
      cases ho : op.operation with
      | load l => simp [hload op l ho, Operator.bare, Operation.withoutKeys, ho]
      | _ =>
        have hne : op.type ≠ .load := by simp [Operator.type, Operation.type, ho]
        rw [Function.comp_apply, hrest op hne]
    · rfl

theorem noted_of_annotateAll : ∀ {tables : List (NodeId × KeyTable)} {p : Plan},
    (tables.forM fun (id, table) => annotate id table) p = .ok () q → Noted p q
  | [], p, hrun => by
    obtain rfl : p = q := by simpa using hrun
    exact .refl
  | (id, table) :: tables, p, hrun => by
    rw [Pass.forM_cons] at hrun
    obtain ⟨_, p₁, hone, hrun⟩ := Pass.bind_eq_ok.mp hrun
    exact (noted_of_annotate hone).trans (noted_of_annotateAll hrun)

end Plan

end Dataflow

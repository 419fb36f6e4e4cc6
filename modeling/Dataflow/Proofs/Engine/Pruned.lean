import Dataflow.Proofs.Engine.Agreement
import Dataflow.Proofs.Engine.Running

/-!
# Plans whose loads are pruned

Where the loads of a plan note the keys that the analysis has found to be needed, every operator
gives rows that agree with the rows of the plan as it was, as far as they are needed of it
(`Provides.agrees`), and the stores get equal rows.
-/

namespace Dataflow

open Plan

namespace Operation

/-- The columns that an operation generates. -/
def items : Operation → List Item
  | .forEach items => items
  | _ => []

/-- The keys that a load notes. -/
def requiredKeys? : Operation → Option KeyTable
  | .load l => l.requiredKeys
  | _ => none

@[simp] theorem items_withoutUids (o : Operation) : o.withoutUids.items = o.items := by
  cases o <;> rfl

@[simp] theorem requiredKeys?_withoutUids (o : Operation) :
    o.withoutUids.requiredKeys? = o.requiredKeys? := by
  cases o <;> rfl

variable {s : Storage} {op : Operator} {xs : List NodeId} {d d' : NodeId → Meaning}
  {σ : NodeId → Option Schema} {t : Option Schema} {n n' : Needs}

/-- The inputs of an operation mean rows that agree as far as it needs them. -/
structure InputsAgree (n' : Needs) (xs : List NodeId) (σ : NodeId → Option Schema)
    (d d' : NodeId → Meaning) : Prop where
  layout : ∀ x ∈ xs, (d' x).layout = (d x).layout
  width : ∀ x ∈ xs, (d x).width? = (σ x).map List.length
  rows : ∀ x ∈ xs, n'.RelationsAgree (Columns.ofSchema (σ x)) (d x).rows (d' x).rows

/-- The schemas that an operation derives, and what is needed of its inputs if `n` is needed of its
output and `n'` of its inputs. -/
structure Demands (n n' : Needs) (xs : List NodeId) (σ : NodeId → Option Schema) (op : Operator)
    (t : Option Schema) : Prop where
  derive : ∃ names supply, names.length = xs.length ∧
    op.deriveSchema (xs.map σ) names supply = .ok (t, op.operation, supply)
  le : n.Le n'
  formulas : ∀ f ∈ op.operation.formulas,
    n'.CoversFormula (xs.map fun x => Columns.ofSchema (σ x)) f
  whole : op.type = .store ∨ op.type = .distinct → ∀ x ∈ xs, ∃ us,
    Columns.ofSchema (σ x) = some us ∧ ∀ u ∈ us, u ∈ n'.whole
  union : op.type = .union → ∃ s, t = some s ∧
    ∀ f ∈ s, ∀ u ∈ f.parents, ∀ a b, n'.Agree u a b → n.Agree f.uid a b
  flat : ∀ items, op.operation = .forEach items → ∀ item ∈ items, item.flatten = false

namespace InputsAgree

theorem forall₃ (h : InputsAgree n' xs σ d d') :
    Forall₃ n'.RelationsAgree (xs.map fun x => Columns.ofSchema (σ x))
      ((xs.map d).map Meaning.rows) ((xs.map d').map Meaning.rows) := by
  rw [List.map_map, List.map_map]
  exact .of_map h.rows

end InputsAgree

/-- The input of an operation that hands its columns on. -/
theorem Demands.passes {x : NodeId} (hd : Demands n n' (x :: xs) σ op t)
    (h : op.type.isPassThrough = true) : t = σ x := by
  obtain ⟨names, supply, -, hderive⟩ := hd.derive
  unfold Operator.deriveSchema at hderive
  cases ho : op.operation <;> simp only [ho] at hderive <;>
    simp [Operator.type, ho, Operation.type, OperatorType.isPassThrough] at h <;>
    exact (congrArg Prod.fst (Except.ok.inj hderive)).symm

/-- The columns of a join or product. -/
theorem Demands.sideBySide (hd : Demands n n' xs σ op t) (h : op.type = .join ∨ op.type = .cross) :
    Columns.ofSchema t = Columns.sideBySide (xs.map fun x => Columns.ofSchema (σ x)) := by
  obtain ⟨names, supply, hnames, hderive⟩ := hd.derive
  have hconcat : Operator.concatSchema op.describe ((xs.map σ).zip names) [] = .ok t := by
    unfold Operator.deriveSchema at hderive
    cases ho : op.operation <;> simp only [ho] at hderive <;>
      simp [Operator.type, ho, Operation.type] at h
    all_goals
      obtain ⟨s, hs, hderive⟩ := Pass.except_bind_eq_ok.mp hderive
      obtain rfl := congrArg Prod.fst (Except.ok.inj hderive)
      exact hs
  rw [Operator.columns_concatSchema (by simpa using hnames) hconcat, List.map_map]
  rfl

/-- The columns that items generate are one for each. -/
theorem Demands.generated (hd : Demands n n' xs σ op t) {items : List Item}
    (ho : op.operation = .forEach items) :
    ∀ us, Columns.ofSchema t = some us → us.length = items.length := by
  intro us hus
  obtain ⟨s, rfl, rfl⟩ := Option.map_eq_some_iff.mp hus
  obtain ⟨names, supply, -, hderive⟩ := hd.derive
  unfold Operator.deriveSchema at hderive
  simp only [ho] at hderive
  obtain ⟨made, hmade, hderive⟩ := Pass.except_bind_eq_ok.mp hderive
  obtain rfl : made = some s := congrArg Prod.fst (Except.ok.inj hderive)
  rw [Schema.uids, List.length_map]
  exact Operator.length_forEachSchema (hd.flat items ho) hmade

/-- A row that agrees as a row of an input of a union agrees as a row of the union. -/
theorem Demands.merged (hd : Demands n n' xs σ op t) (h : op.type = .union) :
    ∀ cols ∈ xs.map fun x => Columns.ofSchema (σ x), ∀ a b, n'.RowsAgree cols a b →
      n.RowsAgree (Columns.ofSchema t) a b := by
  obtain ⟨s, rfl, hunion⟩ := hd.union h
  obtain ⟨names, supply, -, hderive⟩ := hd.derive
  unfold Operator.deriveSchema at hderive
  cases ho : op.operation <;> simp only [ho] at hderive <;>
    simp [Operator.type, ho, Operation.type] at h
  rename_i chosen
  have hfirst : (Operator.unionSchema chosen (xs.map σ) supply).1 = some s :=
    congrArg Prod.fst (Except.ok.inj hderive)
  have hschema : Operator.unionSchema chosen (xs.map σ) supply =
      (some s, (Operator.unionSchema chosen (xs.map σ) supply).2.1,
        (Operator.unionSchema chosen (xs.map σ) supply).2.2) := Prod.ext hfirst rfl
  intro cols hcols a b hab
  obtain ⟨x, hx, rfl⟩ := List.mem_map.mp hcols
  obtain ⟨input, hinput, hlen, hparents⟩ :=
    Operator.parents_unionSchema hschema (σ x) (List.mem_map_of_mem hx)
  rw [hinput] at hab
  refine Needs.rowsAgree_of_columns hab (by simpa [Schema.uids] using hlen)
    fun i u v hu hv c c' hcc => ?_
  obtain ⟨g, hg, rfl⟩ := List.getElem?_map .. ▸ hu |> Option.map_eq_some_iff.mp
  obtain ⟨f, hf, rfl⟩ := List.getElem?_map .. ▸ hv |> Option.map_eq_some_iff.mp
  exact hunion f (List.mem_of_getElem? hf) _ (hparents i f g hf hg) c c' hcc

/-- An operation makes rows that agree of rows that agree, and fails for both or for neither. -/
theorem rows_agree (hd : Demands n n' xs σ op t) (h : InputsAgree n' xs σ d d') (hne : xs ≠ [])
    (hload : op.type ≠ .load) :
    n.RelationsAgree (Columns.ofSchema t) (op.operation.rows s (xs.map d))
        (op.operation.rows s (xs.map d')) ∧
      (op.operation.Succeeds s (xs.map d) ↔ op.operation.Succeeds s (xs.map d')) := by
  obtain ⟨x, xs, rfl⟩ := List.exists_cons_of_ne_nil hne
  have hmono : ∀ {cols : Columns} {rel rel' : Relation}, n'.RelationsAgree cols rel rel' →
      n.RelationsAgree cols rel rel' := fun hrel => hrel.imp fun _ _ hab => hab.mono hd.le
  have hformulas := hd.formulas
  have hx := h.rows x (by simp)
  have hall := h.forall₃
  have hpasses : op.type.isPassThrough = true → t = σ x := hd.passes
  have hmerged := hd.merged
  have hsides := hd.sideBySide
  have hwhole := hd.whole
  have hflat := hd.flat
  unfold Operator.type at hload hpasses hmerged hsides hwhole
  cases ho : op.operation with
  | load l => exact absurd (by rw [ho]; rfl) hload
  | store location | split =>
    obtain rfl := hpasses (by rw [ho]; rfl)
    exact ⟨hmono hx, .rfl⟩
  | limit count =>
    obtain rfl := hpasses (by rw [ho]; rfl)
    exact ⟨List.forall₂_take count (hmono hx), .rfl⟩
  | filter f | splitOutput f =>
    obtain rfl := hpasses (by rw [ho]; rfl)
    obtain ⟨hrows, hsucceeds⟩ := Relation.filter_agree (hformulas f (by simp [ho, formulas])) hx
    exact ⟨hmono hrows, hsucceeds⟩
  | forEach items =>
    exact Relation.generated_agree (hflat items ho)
      (fun item hitem => hformulas _ (by simpa [ho, formulas] using ⟨item, hitem, rfl⟩)) hx
      (hd.generated ho)
  | sort keys =>
    obtain rfl := hpasses (by rw [ho]; rfl)
    have hsort := Relation.sort_agree (fun key hkey => hformulas key.formula
      (by simpa [ho, formulas] using ⟨key, hkey, rfl⟩)) hx
    exact ⟨hmono hsort.getD, hsort.exists_iff⟩
  | distinct =>
    obtain rfl := hpasses (by rw [ho]; rfl)
    obtain ⟨us, hus, huses⟩ := hwhole (.inr (by rw [ho]; rfl)) x (by simp)
    rw [hus] at hx ⊢
    exact ⟨Relation.distinct_agree hx huses, .rfl⟩
  | union chosen =>
    exact ⟨Relation.flatten_agree hall (hmerged (by rw [ho]; rfl)), .rfl⟩
  | cross =>
    rw [hsides (.inr (by rw [ho]; rfl))]
    exact ⟨hmono (Relation.cross_agree hall), .rfl⟩
  | join type keys =>
    rw [hsides (.inl (by rw [ho]; rfl))]
    have hwidths : ((x :: xs).map d).map Meaning.width? =
        ((x :: xs).map fun x => Columns.ofSchema (σ x)).map (·.map List.length) := by
      rw [List.map_map, List.map_map]
      refine List.map_congr_left fun y hy => (h.width y hy).trans ?_
      simp [Columns.ofSchema, Schema.uids, Function.comp_def]
    have hwidths' : ((x :: xs).map d').map Meaning.width? =
        ((x :: xs).map d).map Meaning.width? := by
      rw [List.map_map, List.map_map]
      exact List.map_congr_left fun y hy => congrArg (Option.map List.length) (h.layout y hy)
    have hjoin := Relation.join_agree type (fun ks hks f hf =>
      hformulas f (by simpa [ho, formulas] using ⟨ks, hks, hf⟩)) hall hwidths
    simp only [rows, Succeeds, hwidths']
    exact ⟨hmono hjoin.getD, hjoin.exists_iff⟩

end Operation

/-! ## Loads -/

theorem Needs.of_mem_tableFor {n : Needs} {s : Schema} {i : Nat} {keys : List String}
    (h : (i, keys) ∈ n.tableFor s) :
    ∃ f, s[i]? = some f ∧ f.uid ∉ n.whole ∧ n.keysOf f.uid = keys := by
  obtain ⟨⟨f, j⟩, hf, h⟩ := List.mem_filterMap.mp h
  dsimp only at h
  split at h
  · simp at h
  · rename_i hno
    obtain ⟨keys', hkeys, heq⟩ := Option.map_eq_some_iff.mp h
    obtain ⟨rfl, rfl⟩ := Prod.mk.inj heq
    refine ⟨f, List.mem_zipIdx_iff_getElem?.mp hf, fun hw => hno (by simp [hw]), ?_⟩
    rw [Needs.keysOf, hkeys]
    rfl

namespace Engine

variable {l : Load} {s : Storage} {rows : Relation}

theorem load_pruned (h : l.requiredKeys = none) (table : KeyTable) :
    load { l with requiredKeys := some table } s =
      (load l s).map (List.map (Relation.restrictRow table)) := by
  unfold load
  rw [h]
  cases Storage.Handle.pointAt l.location with
  | error e => rfl
  | ok handle =>
    simp only [Pass.except_ok_bind]
    cases l.declared with
    | none => cases handle.read s <;> rfl
    | some schema =>
      dsimp only
      cases handle.checkSchema schema s <;> cases handle.read s <;> rfl

/-- What a load reads is as wide as it declares. -/
theorem width_load (h : l.requiredKeys = none) (hrun : load l s = .ok rows) {schema : Schema}
    (hl : l.declared = some schema) : ∀ row ∈ rows, row.length = schema.length := by
  unfold load at hrun
  rw [h, hl] at hrun
  obtain ⟨handle, -, hrun⟩ := Pass.except_bind_eq_ok.mp hrun
  obtain ⟨_, hcheck, hrun⟩ := Pass.except_bind_eq_ok.mp hrun
  obtain ⟨read, hread, hrun⟩ := Pass.except_bind_eq_ok.mp hrun
  obtain rfl : read = rows := Except.ok.inj hrun
  unfold Storage.Handle.checkSchema at hcheck
  unfold Storage.Handle.read at hread
  cases hcurrent : handle.current with
  | error e => rw [hcurrent] at hread; simp at hread
  | ok location =>
    rw [hcurrent] at hcheck hread
    simp only [Pass.except_ok_bind] at hcheck hread
    cases hget : s.get? location with
    | none => rw [hget] at hread; simp [throw, throwThe, MonadExceptOf.throw] at hread
    | some records =>
      rw [hget] at hcheck hread
      obtain rfl : records = read := Except.ok.inj hread
      rw [Option.getD_some] at hcheck
      split at hcheck
      · rename_i hfind
        intro row hrow
        obtain ⟨i, hi⟩ := List.mem_iff_getElem?.mp hrow
        have := List.find?_eq_none.mp hfind (row, i) (List.mem_zipIdx_iff_getElem?.mpr hi)
        simpa using this
      · simp [throw, throwThe, MonadExceptOf.throw] at hcheck

/-- What is read agrees with itself, and with itself restricted to the keys that are needed. -/
theorem load_agree {n N : Needs} (h : l.requiredKeys = none) (hle : n.Le N) :
    n.RelationsAgree (Columns.ofSchema l.declared) ((load l s).toOption.getD [])
        ((load l s).toOption.getD []) ∧
      ∀ t, l.declared = some t →
        n.RelationsAgree (Columns.ofSchema l.declared) ((load l s).toOption.getD [])
          ((load { l with requiredKeys := some (N.tableFor t) } s).toOption.getD []) := by
  have hwide : ∀ row ∈ (load l s).toOption.getD [], ∀ t, l.declared = some t →
      row.length = (Schema.uids t).length := fun row hrow t ht => by
    cases hrun : load l s with
    | error e => rw [hrun] at hrow; simp [Except.toOption] at hrow
    | ok rows =>
      rw [hrun] at hrow
      rw [Schema.uids, List.length_map]
      exact width_load h hrun ht row (by simpa [Except.toOption] using hrow)
  refine ⟨List.forall₂_same.mpr fun row hrow => .self fun us hus => ?_, fun t ht => ?_⟩
  · obtain ⟨t, ht, rfl⟩ := Option.map_eq_some_iff.mp hus
    exact hwide row hrow t ht
  · have hpruned : (load { l with requiredKeys := some (N.tableFor t) } s).toOption.getD [] =
        ((load l s).toOption.getD []).map (Relation.restrictRow (N.tableFor t)) := by
      rw [load_pruned h]
      cases load l s <;> rfl
    rw [hpruned, ht]
    refine List.forall₂_map_right_iff.mpr (List.forall₂_same.mpr fun row hrow => .mono hle ?_)
    refine Relation.restrictRow_agree (Needs.forall₃_agree_self (hwide row hrow t ht))
      fun x hx u hu => ?_
    obtain ⟨f, hf, hnot, hkeys⟩ := Needs.of_mem_tableFor hx
    obtain rfl : f.uid = u := by
      rw [Schema.uids, List.getElem?_map, hf] at hu
      exact Option.some.inj hu
    exact ⟨hnot, fun k hk => hkeys ▸ hk⟩

end Engine

namespace Plan

open Dataflow.Graph

variable {p q r : Plan} {s : Storage} {d d' : NodeId → Meaning} {n n' N : Needs} {x z : NodeId}
  {op : Operator} {t : Option Schema} {tables : List (NodeId × KeyTable)}

/-- No generated column is flattened. -/
def NoFlatten (p : Plan) : Prop :=
  ∀ x ∈ p.toList, ∀ item ∈ x.2.operation.items, item.flatten = false

instance : Decidable p.NoFlatten := inferInstanceAs (Decidable (∀ x ∈ p.toList, _))

/-- No load notes which keys are needed. -/
def Unpruned (p : Plan) : Prop := ∀ x ∈ p.toList, x.2.operation.requiredKeys? = none

instance : Decidable p.Unpruned := inferInstanceAs (Decidable (∀ x ∈ p.toList, _))

theorem forall_toList_iff {C : Operation → Prop} (hwf : p.graph.WellFormed)
    (hC : ∀ o : Operation, C o.withoutUids ↔ C o) :
    (∀ x ∈ p.toList, C x.2.operation) ↔ ∀ z op, p.core? z = some op → C op.operation := by
  constructor
  · rintro h z op hop
    obtain ⟨op', hop', rfl⟩ := Option.map_eq_some_iff.mp hop
    rw [Operator.operation_core, hC]
    exact h (z, op') ((hwf.mem_toList_iff).mpr hop')
  · rintro h ⟨z, op⟩ hx
    rw [← hC, ← Operator.operation_core]
    exact h z op.core (Option.map_eq_some_iff.mpr ⟨op, (hwf.mem_toList_iff).mp hx, rfl⟩)

theorem noFlatten_iff (hwf : p.graph.WellFormed) : p.NoFlatten ↔
    ∀ z op, p.core? z = some op → ∀ item ∈ op.operation.items, item.flatten = false :=
  forall_toList_iff (C := fun o => ∀ item ∈ o.items, item.flatten = false) hwf fun o => by
    rw [Operation.items_withoutUids]

theorem unpruned_iff (hwf : p.graph.WellFormed) : p.Unpruned ↔
    ∀ z op, p.core? z = some op → op.operation.requiredKeys? = none :=
  forall_toList_iff (C := fun o => o.requiredKeys? = none) hwf fun o => by
    rw [Operation.requiredKeys?_withoutUids]

theorem NoFlatten.alike (hp : p.NoFlatten) (hwf : p.graph.WellFormed) (h : Alike p q) :
    q.NoFlatten :=
  (noFlatten_iff (h.wellFormed hwf)).mpr fun z op hop =>
    (noFlatten_iff hwf).mp hp z op (h.core?.symm.trans hop)

theorem Unpruned.alike (hp : p.Unpruned) (hwf : p.graph.WellFormed) (h : Alike p q) :
    q.Unpruned :=
  (unpruned_iff (h.wellFormed hwf)).mpr fun z op hop =>
    (unpruned_iff hwf).mp hp z op (h.core?.symm.trans hop)

/-- A valid plan of which all schemas are derived. -/
structure Derived (p : Plan) : Prop where
  sound : p.Sound
  valid : p.Valid
  known : ∀ z, p.graph.contains z = true → (p.memoOf z).isSome

/-- The columns of the rows of an operator, as far as they are derived and known. -/
def columnsOf (p : Plan) (z : NodeId) : Columns := Columns.ofSchema (p.memoOf z).join

theorem columnsOf_of_memo (h : p.memoOf z = some t) : p.columnsOf z = Columns.ofSchema t := by
  rw [columnsOf, h]
  rfl

/-- What one plan makes at an operator agrees with what another one makes there. -/
structure AgreesAt (s : Storage) (p q : Plan) (d d' : NodeId → Meaning) (n : Needs) (z : NodeId) :
    Prop where
  layout : (d' z).layout = (d z).layout
  rows : n.RelationsAgree (p.columnsOf z) (d z).rows (d' z).rows
  succeeds : SucceedsAt s p d z ↔ SucceedsAt s q d' z
  stored : p.HasType z .store → (d z).rows = (d' z).rows

theorem AgreesAt.mono (h : AgreesAt s p q d d' n' z) (hle : n.Le n') : AgreesAt s p q d d' n z :=
  ⟨h.layout, h.rows.imp fun _ _ hab => hab.mono hle, h.succeeds, h.stored⟩

/-! ## What is needed of the inputs -/

theorem Meets.covers {use : ColumnUse} (h : p.Meets z n use) :
    n.Covers ((p.dataInputs z).map p.columnsOf) use := by
  have hcolumn : ∀ {input i : Nat} {u : Uid}, p.ColumnHas z input i u → ∃ us,
      ((p.dataInputs z).map p.columnsOf)[input]? = some (some us) ∧ us[i]? = some u :=
    fun ⟨x, s, f, hx, hs, hf, hu⟩ => by
      refine ⟨Schema.uids s, ?_, ?_⟩
      · rw [List.getElem?_map, hx, Option.map_some, columnsOf_of_memo hs]
        rfl
      · rw [Schema.uids, List.getElem?_map, hf, ← hu]
        rfl
  cases use with
  | whole input i =>
    obtain ⟨u, hcol, hu⟩ := h
    obtain ⟨us, hus, hui⟩ := hcolumn hcol
    exact ⟨us, u, hus, hui, hu⟩
  | key input i k =>
    obtain ⟨u, hcol, hk⟩ := h
    obtain ⟨us, hus, hui⟩ := hcolumn hcol
    exact ⟨us, u, hus, hui, hk⟩

theorem uids_subset_allUids : ∀ s : Schema, Schema.uids s ⊆ Schema.allUids s
  | [] => by simp [Schema.uids]
  | ⟨name, type, nested, uid, parents⟩ :: s => by
    have ih := uids_subset_allUids s
    intro u hu
    rw [Schema.allUids, Field.allUids]
    rcases List.mem_cons.mp hu with rfl | hu
    · simp
    · exact List.mem_append_right _ (ih hu)

/-- What the analysis has found when it leaves an operator behind covers what it demands. -/
theorem Provides.demands (h : Provides p z n n') (hp : p.Derived) (hflat : p.NoFlatten)
    (hop : p.operator? z = some op) (hload : op.type ≠ .load) (ht : p.memoOf z = some t) :
    Operation.Demands n n' (p.dataInputs z) (fun x => (p.memoOf x).join) op t where
  derive := by
    obtain ⟨-, hderive⟩ := hp.sound.coherent z op t hop (by rwa [memoOf, hop] at ht)
    exact ⟨_, _, by simp, hderive default⟩
  le := h.le
  formulas f hf := by
    have hcore : p.core? z = some op.core := by rw [core?, hop]; rfl
    have hfits := ((hp.valid.operators z op hop).other hload).formulas f hf
    refine ⟨hp.sound.formulas z op hop f hf, hfits.valid, fun use huse => ?_⟩
    exact (h.uses _ hcore f (by rwa [Operator.operation_core, Operation.formulas_withoutUids])
      use huse).covers
  whole htype x hx := by
    obtain ⟨s, hs, hall⟩ := h.whole op.type ⟨op, hop, rfl⟩ htype x hx
    exact ⟨Schema.uids s, by rw [hs]; rfl, fun u hu => hall u (uids_subset_allUids s hu)⟩
  union htype := by
    obtain ⟨s, hs, hall⟩ := h.union ⟨op, hop, htype⟩
    exact ⟨s, Option.some.inj (ht.symm.trans hs), hall⟩
  flat items ho := by
    have hitems := hflat (z, op) ((hp.sound.wellFormed.mem_toList_iff).mpr hop)
    dsimp only at hitems
    rwa [ho] at hitems

/-- A load has its declared schema. -/
theorem Derived.load (hp : p.Derived) (hunp : p.Unpruned) (hz : p.HasType z .load) : ∃ name l,
    p.core? z = some { name, operation := .load l } ∧ l.requiredKeys = none ∧
      p.memoOf z = some l.declared := by
  obtain ⟨op, hop, htype⟩ := hz
  obtain ⟨l, ho⟩ : ∃ l, op.operation = .load l := by
    cases ho : op.operation <;> simp [Operator.type, ho, Operation.type] at htype
    exact ⟨_, rfl⟩
  obtain ⟨t, ht⟩ := Option.isSome_iff_exists.mp (hp.known z (contains_of_operator? hop))
  obtain ⟨-, hderive⟩ := hp.sound.coherent z op t hop (by rwa [memoOf, hop] at ht)
  have hmade := hderive default
  unfold Operator.deriveSchema at hmade
  simp only [ho] at hmade
  refine ⟨op.name, l, ?_, ?_, ?_⟩
  · rw [core?, hop, Option.map_some, Operator.core, ho]
    rfl
  · have hkeys := hunp (z, op) ((hp.sound.wellFormed.mem_toList_iff).mpr hop)
    dsimp only at hkeys
    rwa [ho] at hkeys
  · exact ht.trans (congrArg (some ∘ Prod.fst) (Except.ok.inj hmade)).symm

/-! ## One operator -/

section Operators

variable (hp : p.Derived) (hann : Annotated tables p q) (hd : Solves s p d) (hd' : Solves s q d')

include hp hann hd hd'

/-- A load that notes the needed keys reads what agrees with all that is there. -/
theorem agreesAt_load (hunp : p.Unpruned)
    (htables : ∀ x ∈ tables, ∃ t, p.memoOf x.1 = some (some t) ∧ x.2 = N.tableFor t)
    (hle : n.Le N) (hz : p.HasType z .load) : AgreesAt s p q d d' n z := by
  obtain ⟨name, l, hcore, hkeys, hmemo⟩ := hp.load hunp hz
  obtain ⟨hself, hpruned⟩ := Engine.load_agree (s := s) hkeys hle
  have hstore : p.HasType z .store → (d z).rows = (d' z).rows := fun h => by
    simpa using hz.unique h
  have hdz := hd z _ hcore
  have hcols : p.columnsOf z = Columns.ofSchema l.declared := columnsOf_of_memo hmemo
  rcases hann.core z with hcore' | ⟨name', l', table, hmem, hcore₂, hcore'⟩
  · have hdz' := hd' z _ (hcore'.trans hcore)
    refine ⟨by rw [hdz, hdz']; rfl, ?_, ?_, hstore⟩
    · rw [hdz, hdz', hcols]
      exact hself
    · unfold SucceedsAt
      rw [hcore', hcore]
      simp [Operation.Succeeds]
  · obtain rfl : l = l' := by
      have := Option.some.inj (hcore.symm.trans hcore₂)
      simpa using congrArg Operator.operation this
    have hdz' := hd' z _ hcore'
    obtain ⟨t, ht, rfl⟩ := htables _ hmem
    have hdeclared : l.declared = some t := Option.some.inj (hmemo.symm.trans ht)
    refine ⟨by rw [hdz, hdz']; rfl, ?_, ?_, hstore⟩
    · rw [hdz, hdz', hcols]
      exact hpruned t hdeclared
    · unfold SucceedsAt
      rw [hcore', hcore]
      simp only [Option.some.injEq, forall_eq', Operation.Succeeds]
      rw [Engine.load_pruned hkeys]
      cases Engine.load l s <;> simp [Except.map]

/-- Any other operator makes rows that agree of rows that agree. -/
theorem Provides.agreesAt (h : Provides p z n n') (hflat : p.NoFlatten)
    (hz : p.graph.contains z = true) (hload : ¬p.HasType z .load)
    (hinputs : ∀ x ∈ p.dataInputs z, AgreesAt s p q d d' n' x) : AgreesAt s p q d d' n z := by
  obtain ⟨op, hop⟩ := exists_operator? hz
  obtain ⟨t, ht⟩ := Option.isSome_iff_exists.mp (hp.known z hz)
  have htype : op.type ≠ .load := fun he => hload ⟨op, hop, he⟩
  have hcore : p.core? z = some op.core := by rw [core?, hop]; rfl
  have hcore' : q.core? z = some op.core :=
    hann.core_of_ne_load hcore (by rwa [Operator.type_core])
  have hdz := hd.operator hop
  have hdz' : d' z = op.operation.meaning s ((p.dataInputs z).map d') := by
    rw [hd' z _ hcore', hann.dataInputs, Operator.operation_core, Operation.meaning_withoutUids]
  have hne : p.dataInputs z ≠ [] := by
    rw [dataInputs_of_operator? hop, if_neg htype]
    have henough := ((hp.valid.operators z op hop).other htype).enough
    have hmin : 1 ≤ op.type.minInputs := by
      cases ht : op.type <;> simp [OperatorType.minInputs]
      exact absurd ht htype
    intro hnil
    rw [hnil] at henough
    exact absurd (Nat.le_trans hmin henough) (by simp)
  have hagree : Operation.InputsAgree n' (p.dataInputs z) (fun x => (p.memoOf x).join) d d' := by
    refine ⟨fun x hx => (hinputs x hx).layout, fun x hx => ?_, fun x hx => (hinputs x hx).rows⟩
    obtain ⟨tx, htx⟩ := Option.isSome_iff_exists.mp
      (hp.known x (contains_of_mem_dataInputs hp.sound.wellFormed hx))
    rw [Meaning.width?, (hd.layout_of_memo hp.sound.wellFormed hp.valid.acyclic hp.sound.coherent
      htx).1, htx]
    cases tx <;> simp
  obtain ⟨hrows, hsucceeds⟩ := Operation.rows_agree (s := s)
    (h.demands hp hflat hop htype ht) hagree hne htype
  refine ⟨?_, ?_, ?_, fun hstore => ?_⟩
  · have hlayouts : ((p.dataInputs z).map d').map Meaning.layout =
        ((p.dataInputs z).map d).map Meaning.layout := by
      rw [List.map_map, List.map_map]
      exact List.map_congr_left hagree.layout
    rw [hdz, hdz', Operation.meaning, Operation.meaning, hlayouts]
  · rw [hdz, hdz', columnsOf_of_memo ht]
    exact hrows
  · rw [succeedsAt_iff hop, hsucceeds]
    unfold SucceedsAt
    rw [hcore', hann.dataInputs]
    simp
  · -- the columns of the input of a store are needed as a whole
    have hostore : op.type = .store := by
      obtain ⟨op', hop', ht'⟩ := hstore
      obtain rfl := Option.some.inj (hop.symm.trans hop')
      exact ht'
    obtain ⟨x, xs, hxs⟩ := List.exists_cons_of_ne_nil hne
    obtain ⟨us, hus, hall⟩ := (h.demands hp hflat hop htype ht).whole (.inl hostore) x
      (by simp [hxs])
    have hx := (hinputs x (by simp [hxs])).rows
    rw [columnsOf, hus] at hx
    rw [hdz, hdz', hxs]
    cases ho : op.operation <;> simp [Operator.type, ho, Operation.type] at hostore
    exact Relation.eq_of_whole hx hall

/-- The operators behind which the analysis has gone make rows that agree as far as it has found
them to be needed, when each stands behind its inputs. -/
theorem Gathers.agreesAt (hunp : p.Unpruned) (hflat : p.NoFlatten)
    (htables : ∀ x ∈ tables, ∃ t, p.memoOf x.1 = some (some t) ∧ x.2 = N.tableFor t)
    {l : List NodeId} (h : Gathers p l n N) (hl : ∀ z ∈ l, p.graph.contains z = true)
    (hord : p.graph.Ordered l.reverse) : ∀ z ∈ l, AgreesAt s p q d d' n z := by
  induction h with
  | nil => simp
  | @cons z l n n₁ N hstep hrest ih =>
    obtain ⟨hz, hl⟩ := List.forall_mem_cons.mp hl
    rw [List.reverse_cons] at hord
    have hbefore : p.graph.Ordered l.reverse := fun before x behind heq y hy =>
      hord before x (behind ++ [z]) (by rw [heq]; simp) y hy
    have hall := ih htables hl hbefore
    refine List.forall_mem_cons.mpr ⟨?_, fun x hx => (hall x hx).mono hstep.le⟩
    by_cases hload : p.HasType z .load
    · exact agreesAt_load hp hann hd hd' hunp htables (hstep.le.trans hrest.le) hload
    · refine hstep.agreesAt hp hann hd hd' hflat hz hload fun x hx => hall x ?_
      exact List.mem_reverse.mp (hord l.reverse z [] rfl x (mem_predecessors_of_mem_dataInputs hx))

end Operators

end Plan

end Dataflow

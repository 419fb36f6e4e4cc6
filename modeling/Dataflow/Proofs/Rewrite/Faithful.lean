import Dataflow.Proofs.Engine.Pruning
import Dataflow.Proofs.Plan.Lineage
import Dataflow.Proofs.Plan.Ledger
import Dataflow.Proofs.Rewrite.Reached
import Dataflow.Proofs.Script.Reordering
import Mathlib.Data.List.Forall2
import Mathlib.Data.List.Lattice
import Mathlib.Data.List.Pairwise

/-!
# When an optimizer is not noticed

A filter that moves in front of a `ForEach` reads each of its columns where the rule finds the
column's identity. As long as that is the place from which the `ForEach` copies the column
(`Faithful`), the optimized plan simulates the plan: stores get the same records, whatever is no
filter succeeds where it did, and names keep their operators. Two columns of one identity can lead
the rule astray; in a plan without joins, products and unions there are none (`Traceable`).
-/

namespace Dataflow

open Dataflow.Graph Plan Engine

variable {p q r : Plan} {s : Storage} {d d' : NodeId → Meaning} {F G input x y z : NodeId}
  {f : Formula} {op : Operator} {name : Option String} {item : Item} {items : List Item}

/-! ## Copied columns -/

namespace Plan

/-- For each column that a filter reads which can be moved in front of a `ForEach`, the place that
the rule finds is the one from which the `ForEach` copies the column. -/
def Faithful (p : Plan) : Prop :=
  ∀ input F G name f, Rule.eligibleFilter F p = .ok (some (input, G)) p → p.IsFilter G name f →
    ∀ r s o, Extends p r → r.memoOf input = some (some s) → r.memoOf F = some (some o) →
      ∀ c ∈ f.columns, ∀ k, Rule.placeAbove s o c.2 = .ok k →
        ∀ name items, p.core? F = some { name, operation := .forEach items } →
          (∀ item ∈ items, item.flatten = false) ∧
            (items[c.2]?).bind (·.formula.asColumn?) = some (0, k)

end Plan

namespace Relation

variable {row out : Row} {partials made : Relation}

/-- Without flattening, one value is added for each item. -/
theorem generateRow_plain : ∀ {items : List Item} {partials made : Relation},
    (∀ item ∈ items, item.flatten = false) → generateRow row items partials = .ok made →
    ∃ vs, List.Forall₂ (fun item v => item.formula.value [row] = .ok v) items vs ∧
      made = partials.map (· ++ vs)
  | [], partials, made, _, h => ⟨[], .nil, by simpa [generateRow] using h.symm⟩
  | item :: items, partials, made, hflat, h => by
    obtain ⟨hitem, hflat⟩ := List.forall_mem_cons.mp hflat
    unfold generateRow at h
    obtain ⟨v, hv, h⟩ := Pass.except_bind_eq_ok.mp h
    obtain ⟨vs, hvs, rfl⟩ := generateRow_plain hflat h
    refine ⟨v :: vs, .cons hv hvs, ?_⟩
    rw [hitem]
    simp [extend, Function.comp_def]

/-- A generated row has a copied cell where the item for it is a plain column. -/
theorem cell_of_generated {c k : Nat} (hflat : ∀ item ∈ items, item.flatten = false)
    (hplain : (items[c]?).bind (·.formula.asColumn?) = some (0, k))
    (hout : out ∈ generated items row) : Formula.cell [out] 0 c = Formula.cell [row] 0 k := by
  unfold generated at hout
  cases hrun : generateRow row items [[]] with
  | error e => simp [hrun, Except.toOption] at hout
  | ok made =>
    obtain ⟨vs, hvs, rfl⟩ := generateRow_plain hflat hrun
    obtain rfl : out = vs := by simpa [hrun, Except.toOption] using hout
    obtain ⟨item, hitem, hcolumn⟩ := Option.bind_eq_some_iff.mp hplain
    obtain ⟨hc, rfl⟩ := List.getElem?_eq_some_iff.mp hitem
    have hvalue := hvs.get hc (hvs.length_eq ▸ hc)
    rw [List.get_eq_getElem, List.get_eq_getElem, Formula.value_of_asColumn? hcolumn] at hvalue
    rw [Except.ok.inj hvalue]
    simp [Formula.cell, List.getElem?_eq_getElem (hvs.length_eq ▸ hc)]

end Relation

namespace Plan

/-- Where the right places are found, the columns that moved filters read are copied, whatever the
rows are. -/
theorem Faithful.copiesColumns (h : p.Faithful) (hp : p.Sound) (hv : p.Valid) (s : Storage) :
    p.CopiesColumns s := by
  intro d _ input F G name f hfound hG r t o hr ht ho c hc k hk nameF items hF row _ out hout
  obtain ⟨hflat, hplain⟩ := h input F G name f hfound hG r t o hr ht ho c hc k hk nameF items hF
  obtain ⟨-, -, hcols, -⟩ := hG.predicate hp hv
  rw [show c.1 = 0 from Nat.lt_one_iff.mp (hcols c hc)]
  exact Relation.cell_of_generated hflat hplain hout

end Plan

/-! ## Columns traced by their identities -/

namespace Item

/-- The column that a plain item copies. -/
def column? (item : Item) : Option Nat := item.formula.asColumn?.map Prod.snd

/-- An item that is not flattened makes a column of its own or copies one of the input, which keeps
its identity. -/
inductive Makes (inputs : Expr.Inputs) (item : Item) (f : Field) : Prop
  | copy {j : Nat} {s : Schema} {g : Field} : item.column? = some j →
      Expr.schemaOf? inputs 0 = some s → s[j]? = some g → f.uid = g.uid → Makes inputs item f
  | own : item.column? = none → f.uid = item.uid → Makes inputs item f

end Item

namespace Operator

variable {operator : String} {inputs : Expr.Inputs} {t : Schema}

theorem makes_of_itemFields {fields : List (Field × Bool)} (hflat : item.flatten = false)
    (h : itemFields operator inputs item = .ok (some fields)) :
    ∃ f, fields.map Prod.fst = [f] ∧ item.Makes inputs f := by
  unfold itemFields at h
  cases hcolumn : item.formula.asColumn? with
  | some c =>
    obtain ⟨i, j⟩ := c
    simp only [hcolumn, hflat, Bool.false_and, Bool.false_eq_true, if_false] at h
    split at h
    · simp at h
    rename_i s hs
    split at h
    · simp at h
    rename_i g hg
    obtain rfl := Option.some.inj (Except.ok.inj h)
    exact ⟨_, rfl, .copy (by rw [Item.column?, hcolumn]; rfl) hs hg rfl⟩
  | none =>
    simp only [hcolumn, hflat, Bool.false_and, Bool.false_eq_true, if_false] at h
    split at h
    · simp at h
    obtain rfl := Option.some.inj (Except.ok.inj h)
    exact ⟨_, rfl, .own (by rw [Item.column?, hcolumn]; rfl) rfl⟩

theorem makes_of_allItemFields : ∀ {items : List Item} {fields : List (Field × Bool)},
    (∀ item ∈ items, item.flatten = false) →
    allItemFields operator inputs items = .ok (some fields) →
    List.Forall₂ (Item.Makes inputs) items (fields.map Prod.fst)
  | [], fields, _, h => by
    obtain rfl : [] = fields := by simpa [allItemFields] using h
    exact .nil
  | item :: items, fields, hflat, h => by
    obtain ⟨hitem, hflat⟩ := List.forall_mem_cons.mp hflat
    unfold allItemFields at h
    obtain ⟨made, hmade, h⟩ := Pass.except_bind_eq_ok.mp h
    cases made with
    | none => simp at h
    | some made =>
      obtain ⟨rest, hrest, h⟩ := Pass.except_bind_eq_ok.mp h
      obtain ⟨others, rfl, rfl⟩ := Option.map_eq_some_iff.mp (Except.ok.inj h)
      obtain ⟨f, hf, hmakes⟩ := makes_of_itemFields hitem hmade
      rw [List.map_append, hf]
      exact .cons hmakes (makes_of_allItemFields hflat hrest)

theorem makes_of_forEachSchema (hflat : ∀ item ∈ items, item.flatten = false)
    (h : forEachSchema operator items inputs = .ok (some t)) :
    List.Forall₂ (Item.Makes inputs) items t := by
  unfold forEachSchema at h
  obtain ⟨fields, hfields, h⟩ := Pass.except_bind_eq_ok.mp h
  cases fields with
  | none => simp at h
  | some fields =>
    obtain ⟨_, -, h⟩ := Pass.except_bind_eq_ok.mp h
    obtain rfl := Option.some.inj (Except.ok.inj h)
    exact makes_of_allItemFields hflat hfields

end Operator

theorem Schema.uids_sublist_allUids : ∀ s : Schema, s.uids.Sublist (allUids s)
  | [] => .slnil
  | ⟨_, _, inner, u, _⟩ :: s => by
    rw [allUids, Field.allUids]
    exact ((uids_sublist_allUids s).trans (List.sublist_append_right _ _)).cons_cons u

/-- A column has its place by its identity. -/
theorem Schema.place_unique {s : Schema} {g g' : Field} {i j : Nat} (h : s.uids.Nodup)
    (hg : s[i]? = some g) (hg' : s[j]? = some g') (huid : g.uid = g'.uid) : i = j := by
  have hplace : ∀ {i : Nat} {g : Field}, s[i]? = some g → s.uids[i]? = some g.uid :=
    fun {i g} hg => by rw [Schema.uids, List.getElem?_map, hg, Option.map_some]
  obtain ⟨hi, heq⟩ := List.getElem?_eq_some_iff.mp (hplace hg)
  obtain ⟨hj, heq'⟩ := List.getElem?_eq_some_iff.mp (hplace hg')
  exact h.getElem_inj_iff.mp (heq.trans (huid.trans heq'.symm))

/-- Generated columns have different identities, if those of the input and of the items are
different and no column is copied twice. -/
theorem Item.nodup_of_makes {inputs : Expr.Inputs} {t : Schema}
    (hmakes : List.Forall₂ (Item.Makes inputs) items t) (hown : (items.map Item.uid).Nodup)
    (honce : (items.filterMap (·.column?)).Nodup)
    (hinput : ∀ s, Expr.schemaOf? inputs 0 = some s →
      s.uids.Nodup ∧ ∀ item ∈ items, item.uid ∉ s.uids) : t.uids.Nodup := by
  have hpairs : items.Pairwise fun a b => a.uid ≠ b.uid ∧
      ∀ i, a.column? = some i → ∀ j, b.column? = some j → i ≠ j :=
    (List.pairwise_map.mp hown).and (List.pairwise_filterMap.mp honce)
  have hmakes' := (List.forall₂_and_left (p := fun item => ∀ s, Expr.schemaOf? inputs 0 = some s →
    item.uid ∉ s.uids) items t).mpr ⟨fun item hitem s hs => (hinput s hs).2 item hitem, hmakes⟩
  refine List.pairwise_map.mpr (Lists.pairwise_of_forall₂ ?_ hmakes' hpairs)
  rintro a a' f f' ⟨huid, hcolumn⟩ ⟨ha, hf⟩ ⟨ha', hf'⟩ heq
  cases hf with
  | copy hj hs hg hu =>
    cases hf' with
    | copy hj' hs' hg' hu' =>
      -- the same identity at two places of the input
      obtain rfl := Option.some.inj (hs.symm.trans hs')
      exact hcolumn _ hj _ hj' (Schema.place_unique (hinput _ hs).1 hg hg' (by rw [← hu, heq, hu']))
    | own hnone hu' =>
      exact ha' _ hs (List.mem_map.mpr ⟨_, List.mem_of_getElem? hg, by rw [← hu, heq, hu']⟩)
  | own hnone hu =>
    cases hf' with
    | copy hj' hs' hg' hu' =>
      exact ha _ hs' (List.mem_map.mpr ⟨_, List.mem_of_getElem? hg', by rw [← hu', ← heq, hu]⟩)
    | own hnone' hu' => exact huid (by rw [← hu, ← hu', heq])

/-- The place that the rule finds in front of a `ForEach` is the one from which the column is
copied. -/
theorem Rule.column_of_placeAbove {inputs : Expr.Inputs} {s o : Schema} {c k : Nat}
    (hmakes : List.Forall₂ (Item.Makes inputs) items o) (hs : Expr.schemaOf? inputs 0 = some s)
    (hnodup : s.uids.Nodup) (hown : ∀ item ∈ items, item.uid ∉ s.uids)
    (hk : Rule.placeAbove s o c = .ok k) :
    ∃ item, items[c]? = some item ∧ item.column? = some k := by
  unfold Rule.placeAbove at hk
  cases hfield : o[c]? with
  | none => simp [hfield] at hk
  | some field =>
  cases hindex : s.indexOfUid? field.uid with
  | none => simp [hfield, hindex] at hk
  | some i =>
  obtain rfl : i = k := by simpa [hfield, hindex] using hk
  obtain ⟨hi, huid, -⟩ := List.findIdx?_eq_some_iff_getElem.mp hindex
  have huid : s[i].uid = field.uid := beq_iff_eq.mp huid
  obtain ⟨hlt, rfl⟩ := List.getElem?_eq_some_iff.mp hfield
  have hlt' : c < items.length := hmakes.length_eq ▸ hlt
  have hitem := hmakes.get hlt' hlt
  rw [List.get_eq_getElem, List.get_eq_getElem] at hitem
  refine ⟨items[c], List.getElem?_eq_getElem hlt', ?_⟩
  cases hitem with
  | copy hj ht hg hu =>
    obtain rfl := Option.some.inj (hs.symm.trans ht)
    rwa [← Schema.place_unique hnodup hg (List.getElem?_eq_getElem hi) (hu.symm.trans huid.symm)]
  | own hnone hu =>
    refine absurd ?_ (hown items[c] (List.getElem_mem hlt'))
    exact List.mem_map.mpr ⟨s[i], List.getElem_mem hi, huid.trans hu⟩

namespace Plan

/-- How the derived columns of a `ForEach` come about. -/
theorem Coherent.makes {t : Schema} (hr : r.Coherent) (hop : r.operator? z = some op)
    (ho : op.operation = .forEach items) (hflat : ∀ item ∈ items, item.flatten = false)
    (hmemo : op.memo = some (some t)) :
    List.Forall₂ (Item.Makes ((r.dataInputs z).map fun x => (r.memoOf x).join)) items t := by
  have hd := (hr z op _ hop hmemo).2 r.uids
  unfold Operator.deriveSchema at hd
  simp only [ho] at hd
  obtain ⟨s, hs, hd⟩ := Pass.except_bind_eq_ok.mp hd
  simp only [Pass.except_pure, Except.ok.injEq, Prod.mk.injEq, and_true] at hd
  exact Operator.makes_of_forEachSchema hflat (hd ▸ hs)

/-- The plain columns of a `ForEach` are those of its only input. -/
theorem Valid.asColumn?_eq (hv : r.Valid) (hr : r.Sound) (hop : r.operator? z = some op)
    (ho : op.operation = .forEach items) (hpre : r.graph.predecessors z = [x])
    (hitem : item ∈ items) {j : Nat} (hj : item.column? = some j) :
    item.formula.asColumn? = some (0, j) := by
  obtain ⟨⟨i, j⟩, hcolumn, rfl⟩ := Option.map_eq_some_iff.mp hj
  have hmem : item.formula ∈ op.operation.formulas := by
    rw [ho]
    exact List.mem_map_of_mem hitem
  have hfits := ((hv.operators z op hop).other
    (by simp [Operator.type, ho, Operation.type])).formulas _ hmem
  obtain ⟨-, root, n, -, hcontent⟩ := Formula.asColumn?_eq_some hcolumn
  have hlt := hfits.columns _
    ((Formula.mem_columns (hr.formulas z op hop _ hmem)).mpr ⟨root, n, hcontent⟩)
  rw [hpre] at hlt
  obtain rfl : i = 0 := Nat.lt_one_iff.mp hlt
  exact hcolumn

/-- Rows of different origin are not combined, no identity is used twice, and no `ForEach` flattens
a column or copies one twice. -/
structure Traceable (p : Plan) : Prop where
  own : p.ownUids.Nodup
  single : ∀ x ∈ p.toList, x.2.type ≠ .join ∧ x.2.type ≠ .cross ∧ x.2.type ≠ .union
  plain : p.NoFlatten
  once : ∀ x ∈ p.toList, (x.2.operation.items.filterMap (·.column?)).Nodup

instance : Decidable p.Traceable :=
  decidable_of_iff (p.ownUids.Nodup ∧
    (∀ x ∈ p.toList, x.2.type ≠ .join ∧ x.2.type ≠ .cross ∧ x.2.type ≠ .union) ∧ p.NoFlatten ∧
    ∀ x ∈ p.toList, (x.2.operation.items.filterMap (·.column?)).Nodup)
    ⟨fun ⟨h₁, h₂, h₃, h₄⟩ => ⟨h₁, h₂, h₃, h₄⟩, fun ⟨h₁, h₂, h₃, h₄⟩ => ⟨h₁, h₂, h₃, h₄⟩⟩

/-- Whatever is no filter was there before. -/
def OnlyFiltersDiffer (p r : Plan) : Prop :=
  ∀ z op, r.core? z = some op → op.type ≠ .filter → p.core? z = some op

theorem mem_ids_of_mem_uidsAt {u : Uid} (hp : p.graph.WellFormed) (h : u ∈ p.uidsAt z) :
    z ∈ p.ids := by
  unfold uidsAt at h
  cases hop : p.operator? z with
  | none => simp [hop] at h
  | some op => exact (hp.mem_ids z).mpr (contains_of_operator? hop)

theorem Traceable.nodup_uidsAt (h : p.Traceable) (hp : p.graph.WellFormed) :
    (p.uidsAt z).Nodup := by
  cases heq : p.uidsAt z with
  | nil => exact List.nodup_nil
  | cons u us =>
    rw [← heq]
    refine (List.nodup_flatMap.mp h.own).1 z (mem_ids_of_mem_uidsAt hp (u := u) ?_)
    rw [heq]
    exact List.mem_cons_self

/-- An identity has one owner. -/
theorem Traceable.owner {u : Uid} (h : p.Traceable) (hp : p.graph.WellFormed)
    (hy : u ∈ p.uidsAt y) (hz : u ∈ p.uidsAt z) : y = z := by
  by_contra hne
  have hsymm : Std.Symm (Function.onFun List.Disjoint p.uidsAt) :=
    ⟨fun _ _ h => List.Disjoint.symm h⟩
  exact (List.nodup_flatMap.mp h.own).2.forall (mem_ids_of_mem_uidsAt hp hy)
    (mem_ids_of_mem_uidsAt hp hz) hne hy hz

section Traceable

variable {t : Schema} {rank : NodeId → Nat}

variable (h : p.Traceable) (hp : p.graph.WellFormed) (hothers : OnlyFiltersDiffer p r)

include h hp hothers

theorem Traceable.single_of_operator? (hop : r.operator? z = some op) :
    op.type ≠ .join ∧ op.type ≠ .cross ∧ op.type ≠ .union := by
  by_cases ht : op.type = .filter
  · simp [ht]
  · have hcore := hothers z op.core (by rw [core?, hop]; rfl) (by rwa [Operator.type_core])
    have hsingle := (forall_toList_iff
      (C := fun o => o.type ≠ .join ∧ o.type ≠ .cross ∧ o.type ≠ .union) hp fun o => by
        rw [Operation.type_withoutUids]).mp h.single z _ hcore
    rwa [Operator.operation_core, Operation.type_withoutUids] at hsingle

theorem Traceable.plain_of_operator? (hop : r.operator? z = some op)
    (ho : op.operation = .forEach items) :
    (∀ item ∈ items, item.flatten = false) ∧ (items.filterMap (·.column?)).Nodup := by
  have hcore := hothers z op.core (by rw [core?, hop]; rfl)
    (by simp [Operator.type, ho, Operation.withoutUids, Operation.type])
  have honce := (forall_toList_iff (C := fun o => (o.items.filterMap (·.column?)).Nodup)
    hp fun o => by rw [Operation.items_withoutUids]).mp h.once z _ hcore
  have hplain := (noFlatten_iff hp).mp h.plain z _ hcore
  rw [Operator.operation_core, Operation.items_withoutUids, ho] at honce hplain
  exact ⟨hplain, honce⟩

/-- What the operators own is what they own in the earlier plan. -/
theorem Traceable.uidsAt_eq (hop : r.operator? z = some op) (ht : op.type ≠ .filter) :
    p.uidsAt z = op.operation.ownUids := by
  obtain ⟨op', hop', hcore⟩ := Option.map_eq_some_iff.mp
    (hothers z op.core (by rw [core?, hop]; rfl) (by rwa [Operator.type_core]))
  have hunion := (h.single_of_operator? hp hothers hop).2.2
  have hsame := congrArg (fun op => op.operation) hcore
  rw [Operator.operation_core, Operator.operation_core] at hsame
  rw [uidsAt_of_operator? hop', Operation.eq_of_withoutUids hsame fun us hus => ?_]
  rw [hus] at hsame
  cases ho : op.operation <;> rw [ho] at hsame <;> simp [Operation.withoutUids] at hsame
  simp [Operator.type, ho, Operation.type] at hunion

/-- The derived columns have different identities, which operators upstream own. -/
theorem Traceable.uids (hr : r.Coherent) (hwf : r.graph.WellFormed)
    (hrank : ∀ a b, b ∈ r.graph.successors a → rank a < rank b) (ht : r.memoOf z = some (some t)) :
    t.uids.Nodup ∧ ∀ u ∈ t.uids, ∃ y, rank y ≤ rank z ∧ u ∈ p.uidsAt y := by
  induction hz : rank z using Nat.strongRecOn generalizing z t with
  | _ n ih =>
  subst hz
  obtain ⟨op, hop, hmemo⟩ := Option.bind_eq_some_iff.mp ht
  obtain ⟨hjoin, hcross, hunion⟩ := h.single_of_operator? hp hothers hop
  obtain ⟨-, hderive⟩ := hr z op _ hop hmemo
  -- the columns of the first input
  have hinput : ∀ t', Expr.schemaOf? ((r.dataInputs z).map fun x => (r.memoOf x).join) 0 = some t' →
      t'.uids.Nodup ∧ ∀ u ∈ t'.uids, ∃ y, rank y < rank z ∧ u ∈ p.uidsAt y := fun t' ht' => by
    obtain ⟨x, hx, hxt⟩ := List.mem_map.mp (Operator.mem_of_schemaOf? ht')
    have hlt := rank_of_mem_dataInputs hwf hrank hx
    obtain ⟨hnodup, howned⟩ := ih (rank x) hlt (Option.join_eq_some_iff.mp hxt) rfl
    exact ⟨hnodup, fun u hu => (howned u hu).imp fun y hy => ⟨by omega, hy.2⟩⟩
  have hpass : op.deriveSchema ((r.dataInputs z).map fun x => (r.memoOf x).join)
      ((r.dataInputs z).map r.nameOf) r.uids =
        .ok (Expr.schemaOf? ((r.dataInputs z).map fun x => (r.memoOf x).join) 0, op.operation,
          r.uids) →
      t.uids.Nodup ∧ ∀ u ∈ t.uids, ∃ y, rank y ≤ rank z ∧ u ∈ p.uidsAt y := fun h' => by
    have heq := congrArg Prod.fst (Except.ok.inj (h'.symm.trans (hderive r.uids)))
    obtain ⟨hnodup, howned⟩ := hinput t heq
    exact ⟨hnodup, fun u hu => (howned u hu).imp fun y hy => ⟨by omega, hy.2⟩⟩
  have howns := fun ht => h.uidsAt_eq hp hothers hop ht
  cases ho : op.operation with
  | load l =>
    have hd := hderive r.uids
    unfold Operator.deriveSchema at hd
    simp only [ho, Except.ok.injEq, Prod.mk.injEq, and_true] at hd
    have huids : p.uidsAt z = Schema.allUids t := by
      rw [howns (by simp [ho, Operator.type, Operation.type]), ho, Operation.ownUids, hd]
      rfl
    have hsub := Schema.uids_sublist_allUids t
    rw [← huids] at hsub
    exact ⟨(h.nodup_uidsAt hp).sublist hsub, fun u hu => ⟨z, Nat.le_refl _, hsub.subset hu⟩⟩
  | forEach items =>
    obtain ⟨hplain, honce⟩ := h.plain_of_operator? hp hothers hop ho
    have huids : p.uidsAt z = items.map Item.uid := by
      rw [howns (by simp [ho, Operator.type, Operation.type]), ho, Operation.ownUids]
    have hmakes := hr.makes hop ho hplain hmemo
    refine ⟨Item.nodup_of_makes hmakes (huids ▸ h.nodup_uidsAt hp) honce fun s hs => ?_, ?_⟩
    · obtain ⟨hnodup, howned⟩ := hinput s hs
      refine ⟨hnodup, fun item hitem hmem => ?_⟩
      obtain ⟨y, hy, huy⟩ := howned _ hmem
      obtain rfl := h.owner hp huy (huids ▸ List.mem_map_of_mem hitem)
      omega
    · intro u hu
      obtain ⟨f, hf, rfl⟩ := List.mem_map.mp hu
      obtain ⟨item, hitem, hmade⟩ := Lists.exists_of_forall₂ hmakes.flip hf
      cases hmade with
      | copy hj hs hg hug =>
        obtain ⟨y, hy, huy⟩ := (hinput _ hs).2 _ (List.mem_map_of_mem (List.mem_of_getElem? hg))
        exact ⟨y, by omega, hug ▸ huy⟩
      | own hnone hug =>
        exact ⟨z, Nat.le_refl _, by rw [huids, hug]; exact List.mem_map_of_mem hitem⟩
  | join _ _ => simp [Operator.type, ho, Operation.type] at hjoin
  | cross => simp [Operator.type, ho, Operation.type] at hcross
  | union _ => simp [Operator.type, ho, Operation.type] at hunion
  | _ =>
    refine hpass ?_
    unfold Operator.deriveSchema
    rw [ho]

/-- Where columns can be traced, the rule finds the right places. -/
theorem Traceable.faithful (hr : r.Sound) (hv : r.Valid) : r.Faithful := by
  intro input F G name f hfound hG q s o hq hs ho c hc k hk nameF items hF
  obtain ⟨-, path, _, _, _, helig⟩ := eligibleFilter_eq_ok (hr.ready hv) (.refl hr.coherent) hfound
  have hwf := (hr.extends hq).wellFormed
  obtain ⟨rank, hrank⟩ := (hq.alike.valid hv).acyclic
  have hothers' : OnlyFiltersDiffer p q := fun z op hop => hothers z op (hq.alike.core? ▸ hop)
  obtain ⟨op, hop, hmemo⟩ := Option.bind_eq_some_iff.mp ho
  have hfor : op.operation = .forEach items := by
    have hcore : q.core? F = some op.core := by rw [core?, hop]; rfl
    rw [hq.alike.core?, hF] at hcore
    have hsame := congrArg (fun op => op.operation) (Option.some.inj hcore)
    rw [Operator.operation_core] at hsame
    cases ho : op.operation <;> rw [ho] at hsame <;> simp [Operation.withoutUids] at hsame
    rw [hsame]
  obtain ⟨hplain, honce⟩ := h.plain_of_operator? hp hothers' hop hfor
  have hinputs : q.dataInputs F = [input] := by
    rw [dataInputs_of_operator? hop, if_neg (by simp [Operator.type, hfor, Operation.type]),
      hq.alike.predecessors, helig.source]
  have hmakes := hq.coherent.makes hop hfor hplain hmemo
  rw [hinputs, List.map_singleton, hs] at hmakes
  obtain ⟨hnodup, howned⟩ := h.uids hp hothers' hq.coherent hwf hrank hs
  -- what the `ForEach` owns is owned by nothing upstream
  have hown : ∀ item ∈ items, item.uid ∉ s.uids := fun item hitem hmem => by
    obtain ⟨y, hy, huy⟩ := howned _ hmem
    have huF : item.uid ∈ p.uidsAt F := by
      rw [h.uidsAt_eq hp hothers' hop (by simp [Operator.type, hfor, Operation.type]), hfor]
      exact List.mem_map_of_mem hitem
    obtain rfl := h.owner hp huy huF
    have := rank_of_mem_dataInputs hwf hrank (show input ∈ q.dataInputs y by simp [hinputs])
    omega
  obtain ⟨item, hitem, hcolumn⟩ := Rule.column_of_placeAbove hmakes rfl hnodup hown hk
  rw [hitem, Option.bind_some]
  exact ⟨hplain, (hq.alike.valid hv).asColumn?_eq (hr.extends hq) hop hfor
    ((hq.alike.predecessors F).trans helig.source) (List.mem_of_getElem? hitem) hcolumn⟩

end Traceable

/-! ## All that is reached -/

/-- On every plan that is reached while filters are moved, the rule finds the right places. -/
def StaysFaithful (p : Plan) : Prop :=
  ∀ p₁ r, Reaches [Rule.splitFilter] p p₁ → Reaches [Rule.filterAboveForEach] p₁ r → r.Faithful

theorem Simulates.onlyFiltersDiffer (h : Simulates s p d r d') : OnlyFiltersDiffer p r := by
  intro z op hop ht
  have hz : p.HasType z op.type := (h.kept z _ ht).1.mpr (hasType_iff_core?.mpr ⟨op, hop, rfl⟩)
  rw [← (h.kept z _ ht).2 hz, hop]

theorem Traceable.staysFaithful (h : p.Traceable) (hp : p.CanSplit) : p.StaysFaithful := by
  intro p₁ r h₁ h₂
  obtain ⟨d, hd⟩ := exists_solves {} hp.sound.wellFormed hp.valid.acyclic
  obtain ⟨hr, d', hsim⟩ := Simulates.moved_empty hp hd h₁ h₂
  exact h.faithful hp.sound.wellFormed hsim.onlyFiltersDiffer hr.sound hr.valid

end Plan

/-- Where the right places are found, the optimized plan simulates the plan, on every storage. -/
theorem OptimizesTo.simulates (h : OptimizesTo p r) (hp : p.CanSplit) (hfaithful : p.StaysFaithful)
    (hd : Solves s p d) : r.CanMerge ∧ ∃ d', Simulates s p d r d' := by
  obtain ⟨p₁, p₂, h₁, h₂, h₃⟩ := h
  obtain ⟨hfit₁, -⟩ := Simulates.split hp hd h₁
  have hfits : ∀ r, Reaches [Rule.filterAboveForEach] p₁ r → r.CanMerge := fun r hr =>
    hr.fit fitness_canMerge (by simpa using Rule.filterAboveForEach_behaves) hfit₁.canMerge
  obtain ⟨hfit, d₂, hsim⟩ := Simulates.moved hp hd h₁ h₂ fun r hr =>
    (hfaithful p₁ r h₁ hr).copiesColumns (hfits r hr).sound (hfits r hr).valid s
  obtain ⟨hr, d₃, hsim'⟩ := Simulates.merge hfit hsim.solves h₃
  exact ⟨hr, d₃, hsim.trans hsim'⟩

/-! ## What can be seen of it -/

namespace Plan

/-- Whatever is no filter stands in both plans, succeeds in the second one where it does in the
first, and feeds there what it fed; what reads or writes does so at the same place. Stores get the
same rows. -/
structure Reproduces (s : Storage) (p : Plan) (d : NodeId → Meaning) (q : Plan)
    (d' : NodeId → Meaning) : Prop where
  solves : Solves s q d'
  types : ∀ z t, t ≠ .filter → (p.HasType z t ↔ q.HasType z t)
  places : ∀ t z location, t ≠ .filter → (q.HasPlace t z location ↔ p.HasPlace t z location)
  stored : ∀ z, p.HasType z .store → (d' z).rows = (d z).rows
  succeeds : ∀ z t, t ≠ .filter → p.HasType z t → SucceedsAt s p d z → SucceedsAt s q d' z
  feeds : ∀ x z t, p.HasType x .store → t ≠ .filter → p.HasType z t → Feeds q x z → Feeds p x z

theorem Simulates.reproduces (h : Simulates s p d q d') : Reproduces s p d q d' where
  solves := h.solves
  types z t ht := (h.kept z t ht).1
  places t z location ht := by
    constructor
    · rintro ⟨op, hop, rfl, hlocation⟩
      exact ⟨op, h.onlyFiltersDiffer z op hop ht, rfl, hlocation⟩
    · rintro ⟨op, hop, rfl, hlocation⟩
      exact ⟨op, ((h.kept z _ ht).2 (hasType_iff_core?.mpr ⟨op, hop, rfl⟩)).trans hop, rfl,
        hlocation⟩
  stored z hz := congrArg Meaning.rows (h.stored hz)
  succeeds := h.succeeds
  feeds := h.feeds

theorem SucceedsAt.congr (hwf : p.graph.WellFormed)
    (h : ∀ x, p.graph.contains x = true → d x = d' x) :
    SucceedsAt s p d z ↔ SucceedsAt s p d' z := by
  unfold SucceedsAt
  rw [List.map_congr_left fun x hx => h x (contains_of_mem_dataInputs hwf hx)]

theorem SameFlow.hasType {t : OperatorType} (h : SameFlow p q) : q.HasType z t ↔ p.HasType z t := by
  have hiff : ∀ p : Plan, p.HasType z t ↔ (p.operator? z).map Operator.type = some t :=
    fun p => Option.map_eq_some_iff.symm
  rw [hiff, hiff, h.type]

theorem SameFlow.hasPlace {t : OperatorType} {location : String} (h : SameFlow p q) :
    q.HasPlace t z location ↔ p.HasPlace t z location := by
  have hiff : ∀ p : Plan, p.HasPlace t z location ↔
      (p.core? z).map (fun op => (op.type, op.operation.location?)) = some (t, some location) :=
    fun p => by simp [HasPlace]
  rw [hiff, hiff, h.kind]

/-- What can be seen of a plan can be seen of one of the same flow that stores the same and fails
nowhere else. -/
theorem Reproduces.sameFlow {d'' : NodeId → Meaning} (h : Reproduces s p d r d')
    (hflow : SameFlow r q) (hd'' : Solves s q d'')
    (hsucceeds : ∀ z, r.graph.contains z = true → SucceedsAt s r d' z → SucceedsAt s q d'' z)
    (hstored : ∀ z, r.HasType z .store → (d' z).rows = (d'' z).rows) : Reproduces s p d q d'' where
  solves := hd''
  types z t ht := (h.types z t ht).trans hflow.hasType.symm
  places t z location ht := hflow.hasPlace.trans (h.places t z location ht)
  stored z hz := (hstored z ((h.types z .store (by simp)).mp hz)).symm.trans (h.stored z hz)
  succeeds z t ht hz hs := hsucceeds z ((h.types z t ht).mp hz).contains (h.succeeds z t ht hz hs)
  feeds x z t hx ht hz hf := h.feeds x z t hx ht hz (hflow.symm.feeds hf)

section Optimized

variable {config : Config} {report : Report} {P Q : Prepared}

theorem OnlyFiltersDiffer.noFlatten (h : OnlyFiltersDiffer p r) (hp : p.graph.WellFormed)
    (hr : r.graph.WellFormed) (hflat : p.NoFlatten) : r.NoFlatten := by
  refine (noFlatten_iff hr).mpr fun z op hop => ?_
  by_cases ht : op.type = .filter
  · cases ho : op.operation <;> simp [Operator.type, ho, Operation.type] at ht
    simp [Operation.items]
  · exact (noFlatten_iff hp).mp hflat z op (h z op hop ht)

theorem OnlyFiltersDiffer.unpruned (h : OnlyFiltersDiffer p r) (hp : p.graph.WellFormed)
    (hr : r.graph.WellFormed) (hunp : p.Unpruned) : r.Unpruned := by
  refine (unpruned_iff hr).mpr fun z op hop => ?_
  by_cases ht : op.type = .filter
  · cases ho : op.operation <;> simp [Operator.type, ho, Operation.type] at ht
    rfl
  · exact (unpruned_iff hp).mp hunp z op (h z op hop ht)

theorem Reproduces.loadsApart (h : Reproduces s p d q d') (hp : p.LoadsApart) : q.LoadsApart := by
  intro x z l location nx nz hx hz
  have hx' := (h.places .load x l.location (by simp)).mp (hasPlace_load.mpr ⟨nx, l, hx, rfl⟩)
  have hz' := (h.places .store z location (by simp)).mp (hasPlace_store.mpr ⟨nz, hz⟩)
  obtain ⟨nx', l', hl', hloc⟩ := hasPlace_load.mp hx'
  obtain ⟨nz', hstore⟩ := hasPlace_store.mp hz'
  exact hloc ▸ hp x z l' location nx' nz' hl' hstore

/-- A completed job about a store of the plan holds the rows of the store that writes its
location. -/
theorem exists_stage (hfits : List.Forall₂ (JobFits s p d) P.stages (execute P s).1) {job : Job}
    (hjob : job ∈ (execute P s).1) (hdone : job.isCompleted = true) (hP : Prepares p P) :
    ∃ z, p.HasPlace .store z job.location ∧ job.records = (d z).rows := by
  obtain ⟨stage, hstage, hfit⟩ := Lists.exists_of_forall₂ hfits.flip hjob
  obtain ⟨name, hstore⟩ := (hP.stages stage hstage).store
  refine ⟨stage.store, hasPlace_store.mpr ⟨name, ?_⟩, (hfit.completed hdone).1⟩
  rw [hfit.location]
  exact hstore

/-- What the optimizer must not do wrong for its work not to be noticed: filters find the right
places in front of a `ForEach`, and where map keys are noted, none were noted before and no column
is flattened. -/
structure OptimizesSafely (config : Config) (p : Plan) : Prop where
  faithful : p.StaysFaithful
  pruning : config.pruneMapKeys = true → p.NoFlatten ∧ p.Unpruned

variable (hp : p.Sound) (hvalid : p.validate = .ok ()) (hroom : p.HasRoom)
  (hconfig : config.check = .ok ()) (hsafe : OptimizesSafely config p)
  (hrun : ({ config } : Optimizer).optimize p = .ok report q)

include hp hvalid hroom hconfig hsafe hrun

/-- The optimized plan is one that rewriting reaches, but for the map keys that are noted on its
loads, and those are not noticed. -/
theorem optimize_compare : ∃ r, OptimizesTo p r ∧ r.CanMerge ∧ q.Sound ∧ SameFlow r q ∧
    ((∃ R, Prepared.ofPlan r = .ok R) ↔ ∃ Q, Prepared.ofPlan q = .ok Q) ∧
    ∀ R, Prepared.ofPlan r = .ok R → ∀ s, ∃ d d', Solves s r d ∧ Solves s q d' ∧
      (∀ z, r.graph.contains z = true → (SucceedsAt s r d z ↔ SucceedsAt s q d' z)) ∧
      ∀ z, r.HasType z .store → (d z).rows = (d' z).rows := by
  have hv := (validate_eq_ok hp.wellFormed hp.formulas).mp hvalid
  have hspec := Optimizer.optimize_spec hp hv hroom hconfig
  rw [hrun] at hspec
  obtain ⟨r, hto, hr, hq⟩ := hspec
  refine ⟨r, hto, hr, ?_⟩
  have hwf := hr.sound.wellFormed
  by_cases hprune : config.pruneMapKeys = true
  · rw [if_pos hprune] at hq
    obtain ⟨n, hkeys⟩ := hq
    obtain ⟨hflat, hunp⟩ := hsafe.pruning hprune
    obtain ⟨d, hd⟩ := exists_solves {} hp.wellFormed hv.acyclic
    obtain ⟨-, d', hsim⟩ := hto.simulates_empty (hroom.canSplit hp hv) hd
    obtain ⟨hqs, -, hrest⟩ := pruneMapKeys_compare hr.sound hr.valid
      (hsim.onlyFiltersDiffer.noFlatten hp.wellFormed hwf hflat)
      (hsim.onlyFiltersDiffer.unpruned hp.wellFormed hwf hunp) hkeys
    exact ⟨hqs, hrest⟩
  · rw [if_neg hprune] at hq
    subst hq
    refine ⟨hr.sound, Alike.refl.sameFlow, .rfl, fun R _ s => ?_⟩
    obtain ⟨d, hd⟩ := exists_solves s hwf hr.valid.acyclic
    exact ⟨d, d, hd, hd, fun _ _ => .rfl, fun _ _ => rfl⟩

/-- On every storage the optimized plan does what can be seen of the plan, if it can be prepared. -/
theorem optimize_reproduces (hQ : Prepared.ofPlan q = .ok Q) (hd : Solves s p d) :
    q.Sound ∧ ∃ d', Reproduces s p d q d' := by
  have hv := (validate_eq_ok hp.wellFormed hp.formulas).mp hvalid
  obtain ⟨r, hto, hr, hqs, hflow, hprepared, hcompare⟩ :=
    optimize_compare hp hvalid hroom hconfig hsafe hrun
  obtain ⟨-, d', hsim⟩ := hto.simulates (hroom.canSplit hp hv) hsafe.faithful hd
  obtain ⟨R, hR⟩ := hprepared.mpr ⟨Q, hQ⟩
  obtain ⟨d₁, d₂, hd₁, hd₂, hsucceeds, hstored⟩ := hcompare R hR s
  have hwf := hr.sound.wellFormed
  have hsame := hsim.solves.unique hwf hr.valid.acyclic hd₁
  refine ⟨hqs, d₂, hsim.reproduces.sameFlow hflow hd₂ (fun z hz hs => ?_) fun z hz => ?_⟩
  · exact (hsucceeds z hz).mp ((SucceedsAt.congr hwf hsame).mp hs)
  · rw [hsame z hz.contains, hstored z hz]

/-- What a store holds after a completed job it also holds after a completed job of the optimized
plan, if stores write apart from each other and from loads. -/
theorem optimize_keeps_records (hloads : p.LoadsApart) (hstores : p.StoresApart)
    (hP : Prepared.ofPlan p = .ok P) (hQ : Prepared.ofPlan q = .ok Q) (s : Storage) :
    ∀ job ∈ (execute P s).1, ∀ job' ∈ (execute Q s).1, job.location = job'.location →
      job.isCompleted = true → job'.isCompleted = true → job'.records = job.records := by
  have hprep := ofPlan_eq_ok hp hP
  obtain ⟨d, hd⟩ := exists_solves s hp.wellFormed hprep.valid.acyclic
  obtain ⟨hq, d', h⟩ := optimize_reproduces hp hvalid hroom hconfig hsafe hrun hQ hd
  have hprep' := ofPlan_eq_ok hq hQ
  have hfits := (execute_spec hp hprep hd hloads).1
  have hfits' := (execute_spec hq hprep' h.solves (h.loadsApart hloads)).1
  intro job hjob job' hjob' hlocation hdone hdone'
  obtain ⟨z, hz, hrecords⟩ := exists_stage hfits hjob hdone hprep
  obtain ⟨z', hz', hrecords'⟩ := exists_stage hfits' hjob' hdone' hprep'
  obtain ⟨n, hn⟩ := hasPlace_store.mp hz
  obtain ⟨n', hn'⟩ := hasPlace_store.mp ((h.places .store z' _ (by simp)).mp hz')
  obtain rfl : z = z' := hstores z z' _ n n' hn (hlocation ▸ hn')
  rw [hrecords, hrecords', h.stored z hz.hasType]

/-- When all jobs of a plan are completed, only two things can go wrong with the optimized plan: it
cannot be prepared, because a name came to stand for two columns, or a filter that feeds a store
fails on a row that it is given. -/
theorem optimize_keeps_jobs (hloads : p.LoadsApart) (hP : Prepared.ofPlan p = .ok P)
    (hdone : ∀ job ∈ (execute P s).1, job.isCompleted = true) :
    ((∃ Q, Prepared.ofPlan q = .ok Q) ∨ ∃ r e, OptimizesTo p r ∧ Duplicates r e) ∧
      ∀ Q, Prepared.ofPlan q = .ok Q → ∀ d', Solves s q d' →
        ((∀ job ∈ (execute Q s).1, job.isCompleted = true) ↔
          ∀ z t, q.HasType z .filter → q.HasType t .store → Feeds q t z → SucceedsAt s q d' z) := by
  have hprep := ofPlan_eq_ok hp hP
  have hv := hprep.valid
  refine ⟨?_, fun Q hQ d' hd' => ?_⟩
  · by_contra hnot
    obtain ⟨hQ, hdup⟩ := not_or.mp hnot
    obtain ⟨r, hto, hr, -, -, hprepared, -⟩ :=
      optimize_compare hp hvalid hroom hconfig hsafe hrun
    cases hresolve : resolveSchemas r with
    | ok _ r' =>
      exact hQ (hprepared.mp ((exists_ofPlan_iff hr.sound).mpr ⟨hr.valid, r', hresolve⟩))
    | error e r' =>
      have hstuck := resolveSchemas_spec (hr.sound.ready hr.valid)
      rw [hresolve] at hstuck
      exact hdup ⟨r, e, hto, hto.duplicates (hroom.canSplit hp hv)
        (resolveSchemas_of_ofPlan (hp.ready hv) hP) hstuck⟩
  · obtain ⟨d, hd⟩ := exists_solves s hp.wellFormed hv.acyclic
    obtain ⟨hq, d₁, h⟩ := optimize_reproduces hp hvalid hroom hconfig hsafe hrun hQ hd
    have hprep' := ofPlan_eq_ok hq hQ
    have hsame := h.solves.unique hq.wellFormed hprep'.valid.acyclic hd'
    have hall := (forall_stageSucceeds hp hprep).mp ((execute_spec hp hprep hd hloads).2.mp hdone)
    rw [(execute_spec hq hprep' hd' (h.loadsApart hloads)).2, forall_stageSucceeds hq hprep']
    refine ⟨fun hsucc z t _ ht hf => hsucc t z ht hf, fun hfilters t z ht hf => ?_⟩
    by_cases hz : q.HasType z .filter
    · exact hfilters z t hz ht hf
    · -- what is no filter succeeds where it did
      obtain ⟨type, htype⟩ := exists_hasType (hf.contains hq.wellFormed ht.contains)
      have hne : type ≠ .filter := fun heq => hz (heq ▸ htype)
      have ht' := (h.types t .store (by simp)).mpr ht
      have htype' := (h.types z type hne).mpr htype
      exact (SucceedsAt.congr hq.wellFormed hsame).mp
        (h.succeeds z type hne htype' (hall t z ht' (h.feeds t z type ht' hne htype' hf)))

end Optimized

/-! ## A filter behind a swap -/

theorem loadsApart_of_located (hp : p.graph.WellFormed) (h : ∀ load ∈ Session.located p .load,
    ∀ store ∈ Session.located p .store, load.2 ≠ store.2) : p.LoadsApart := by
  intro x z l location nx nz hx hz
  have hload : p.HasPlace .load x l.location := hasPlace_load.mpr ⟨nx, l, hx, rfl⟩
  have hstore : p.HasPlace .store z location := hasPlace_store.mpr ⟨nz, hz⟩
  exact h (x, l.location) ((Session.mem_located hp).mpr hload) (z, location)
    ((Session.mem_located hp).mpr hstore)

/-- Two columns are swapped, and the filter behind it reads the second one. -/
def swappedPlan : AdmittedPlan := .make (do
  let columns : Schema := [{ name := some "x", type := .int }, { name := some "y", type := .int }]
  let load ← append { operation := .load { location := "/in", declared := some columns } } []
  let column (i : Nat) : Formula := ⟨(Graph.empty.add (.column 0 i none)).2⟩
  let items : List Item := [{ formula := column 1 }, { formula := column 0 }]
  let swapped ← append { operation := .forEach items } [load]
  let positive : Expr := .binary (.compare .gt) (.column 0 1 none) (.const (.int 0))
  let kept ← append
    { operation := .filter ((Formula.ofExpr positive).toOption.getD {}) } [swapped]
  append { operation := .store "/out" } [kept]) (by decide +kernel)

/-- Two records, of which one has a positive `x`. -/
def twoRecords : Storage := ({} : Storage).insert "/in" [[.int 1, .int 2], [.int (-3), .int 4]]

theorem swappedPlan_optimizesSafely : OptimizesSafely {} swappedPlan.plan where
  faithful := Traceable.staysFaithful (by decide +kernel) (swappedPlan.hasRoom.canSplit
    swappedPlan.sound ((validate_eq_ok swappedPlan.sound.wellFormed swappedPlan.sound.formulas).mp
      swappedPlan.valid))
  pruning _ := by decide +kernel

theorem swappedPlan_loadsApart : swappedPlan.plan.LoadsApart :=
  loadsApart_of_located swappedPlan.sound.wellFormed (by decide +kernel)

/-- Whether the plan has one job, which is completed with records of these whole numbers. -/
def completesWith (p : Plan) (s : Storage) (location : String) (cells : List (List (Option Int))) :
    Bool :=
  match (Prepared.ofPlan p).toOption.map fun P => (execute P s).1 with
  | some [job] => job.location == location && job.isCompleted &&
    job.records.map (·.map Value.asInt?) == cells
  | _ => false

theorem exists_job {location : String} {cells : List (List (Option Int))}
    (h : p.completesWith s location cells = true) : ∃ P job, Prepared.ofPlan p = .ok P ∧
      (execute P s).1 = [job] ∧ job.location = location ∧ job.isCompleted = true ∧
        job.records.map (·.map Value.asInt?) = cells := by
  unfold completesWith at h
  cases hP : Prepared.ofPlan p with
  | error e => simp [hP, Except.toOption] at h
  | ok P =>
    simp only [hP, Except.toOption, Option.map_some] at h
    split at h
    · rename_i job hjobs
      refine ⟨P, job, rfl, Option.some.inj hjobs, ?_⟩
      simpa [and_assoc] using h
    · cases h

theorem swappedPlan_completes :
    swappedPlan.plan.completesWith twoRecords "/out" [[some 2, some 1]] = true := by
  decide +kernel

/-- The filter is moved in front of the swap. -/
theorem swappedPlan_optimized : ∃ report q,
    ({} : Optimizer).optimize swappedPlan.plan = .ok report q ∧
    report.applications = [("FilterAboveForeach", 1)] ∧
    q.completesWith twoRecords "/out" [[some 2, some 1]] = true := by
  have hruns : Pass.okWith ({} : Optimizer).optimize swappedPlan.plan
      (fun report q => report.applications == [("FilterAboveForeach", 1)] &&
        q.completesWith twoRecords "/out" [[some 2, some 1]]) = true := by
    decide +kernel
  obtain ⟨report, q, hrun, htest⟩ := Pass.exists_of_okWith hruns
  obtain ⟨happlied, hdone⟩ := Bool.and_eq_true_iff.mp htest
  exact ⟨report, q, hrun, beq_iff_eq.mp happlied, hdone⟩

/-- The store gets the same record whether or not the filter was moved. -/
theorem swappedPlan_records : ∃ report q P Q job job',
    ({} : Optimizer).optimize swappedPlan.plan = .ok report q ∧
    report.applications = [("FilterAboveForeach", 1)] ∧
    Prepared.ofPlan swappedPlan.plan = .ok P ∧ Prepared.ofPlan q = .ok Q ∧
    (execute P twoRecords).1 = [job] ∧ (execute Q twoRecords).1 = [job'] ∧
    job.isCompleted = true ∧ job'.isCompleted = true ∧ job'.records = job.records ∧
    job.records.map (·.map Value.asInt?) = [[some 2, some 1]] := by
  obtain ⟨report, q, hrun, happlied, hq⟩ := swappedPlan_optimized
  obtain ⟨P, job, hP, hjobs, hlocation, hdone, hcells⟩ := exists_job swappedPlan_completes
  obtain ⟨Q, job', hQ, hjobs', hlocation', hdone', -⟩ := exists_job hq
  have hstores : swappedPlan.plan.StoresApart :=
    Session.StoredOnce.storesApart (by decide +kernel) swappedPlan.sound.wellFormed
  refine ⟨report, q, P, Q, job, job', hrun, happlied, hP, hQ, hjobs, hjobs', hdone, hdone',
    ?_, hcells⟩
  exact optimize_keeps_records swappedPlan.sound swappedPlan.valid swappedPlan.hasRoom rfl
    swappedPlan_optimizesSafely hrun swappedPlan_loadsApart hstores hP hQ twoRecords job
    (by simp [hjobs]) job' (by simp [hjobs']) (hlocation.trans hlocation'.symm) hdone hdone'

/-- The job is completed again, so the moved filter fails on no row. -/
theorem swappedPlan_jobs : ∃ report q P Q d,
    ({} : Optimizer).optimize swappedPlan.plan = .ok report q ∧
    report.applications = [("FilterAboveForeach", 1)] ∧
    Prepared.ofPlan swappedPlan.plan = .ok P ∧ Prepared.ofPlan q = .ok Q ∧
    (∀ job ∈ (execute P twoRecords).1, job.isCompleted = true) ∧ Solves twoRecords q d ∧
    ∀ z t, q.HasType z .filter → q.HasType t .store → Feeds q t z →
      SucceedsAt twoRecords q d z := by
  obtain ⟨report, q, hrun, happlied, hq⟩ := swappedPlan_optimized
  obtain ⟨P, job, hP, hjobs, -, hdone, -⟩ := exists_job swappedPlan_completes
  obtain ⟨Q, job', hQ, hjobs', -, hdone', -⟩ := exists_job hq
  have hall : ∀ job ∈ (execute P twoRecords).1, job.isCompleted = true := by simp [hjobs, hdone]
  have hall' : ∀ job ∈ (execute Q twoRecords).1, job.isCompleted = true := by simp [hjobs', hdone']
  obtain ⟨d₀, hd₀⟩ := exists_solves twoRecords swappedPlan.sound.wellFormed
    (ofPlan_eq_ok swappedPlan.sound hP).valid.acyclic
  obtain ⟨-, d, h⟩ := optimize_reproduces swappedPlan.sound swappedPlan.valid
    swappedPlan.hasRoom rfl
    swappedPlan_optimizesSafely hrun hQ hd₀
  obtain ⟨-, hjobs⟩ := optimize_keeps_jobs swappedPlan.sound swappedPlan.valid
    swappedPlan.hasRoom rfl
    swappedPlan_optimizesSafely hrun swappedPlan_loadsApart hP hall
  exact ⟨report, q, P, Q, d, hrun, happlied, hP, hQ, hall, h.solves,
    (hjobs Q hQ d h.solves).mp hall'⟩

/-! ## Names -/

/-- Whatever is no filter stays where it is. -/
theorem optimize_keeps_types {config : Config} {report : Report} {t : OperatorType} (hp : p.Sound)
    (hvalid : p.validate = .ok ()) (hroom : p.HasRoom) (hconfig : config.check = .ok ())
    (hrun : ({ config } : Optimizer).optimize p = .ok report q) (ht : t ≠ .filter)
    (hz : p.HasType z t) : q.HasType z t := by
  have hv := (validate_eq_ok hp.wellFormed hp.formulas).mp hvalid
  have hspec := Optimizer.optimize_spec hp hv hroom hconfig
  rw [hrun] at hspec
  obtain ⟨r, hto, hr, hq⟩ := hspec
  obtain ⟨d, hd⟩ := exists_solves {} hp.wellFormed hv.acyclic
  obtain ⟨-, d', hsim⟩ := hto.simulates_empty (hroom.canSplit hp hv) hd
  have hz' := (hsim.kept z t ht).1.mp hz
  by_cases hprune : config.pruneMapKeys = true
  · rw [if_pos hprune] at hq
    obtain ⟨n, hkeys⟩ := hq
    have hpruned := pruneMapKeys_spec hr.sound hr.valid
    rw [hkeys] at hpruned
    obtain ⟨-, -, hext | ⟨r', hext, hprunes⟩⟩ := hpruned
    · exact hext.alike.symm.hasType hz'
    · obtain ⟨tables, hann⟩ := hprunes.annotated
      exact hann.sameFlow.hasType.mpr (hext.alike.symm.hasType hz')
  · rw [if_neg hprune] at hq
    exact hq ▸ hz'

end Plan

namespace Session

variable {σ σ' : Session} {config : Config} {report : Report} {t : OperatorType} {bound : String}

theorem onPlan_eq_ok {β : Type} {edit : Plan.Edit β} {b : β} : onPlan edit σ = .ok b σ' ↔
    ∃ q, edit σ.plan = .ok b q ∧ σ' = { σ with draft := { σ.draft with plan := q } } := by
  unfold onPlan onDraft Draft.onPlan plan
  cases edit σ.draft.plan with
  | ok b' q => simp [eq_comm]
  | error e q => simp

/-- A name that is bound to an operator still means it after the names were brought up to date. -/
theorem node_refresh (hname : σ.draft.names[bound]? = some z)
    (hz : σ.plan.graph.contains z = true) : σ.refresh.2.node bound = .ok z := by
  have hcurrent : σ.draft.current? bound z = some z := if_pos hz
  have hlive : σ.refresh.2.draft.names[bound]? = some z := by
    change (σ.draft.names.filterMap σ.draft.current?)[bound]? = some z
    rw [Std.TreeMap.getElem?_filterMap', hname]
    exact hcurrent
  have hmeans : σ.refresh.2.draft.current? bound z = some z := hcurrent
  simp [Session.node, Draft.node, Draft.lookup, hlive, hmeans]

/-- After a session's plan was optimized and its names were brought up to date, a name of an
operator other than a filter means that operator as before. Unless map keys are noted, the operator
has the rows that it had; only a `ForEach` may miss some, which a filter behind it dropped
before. -/
theorem optimize_keeps_names (hp : σ.plan.Sound) (hvalid : σ.plan.validate = .ok ())
    (hroom : σ.plan.HasRoom) (hconfig : config.check = .ok ())
    (hrun : onPlan ({ config } : Optimizer).optimize σ = .ok report σ')
    (hname : σ.draft.names[bound]? = some z) (hz : σ.plan.HasType z t) (ht : t ≠ .filter) :
    σ'.refresh.2.node bound = .ok z ∧
      (config.pruneMapKeys = false → σ.plan.StaysFaithful → ∀ s d, Solves s σ.plan d →
        ∃ d', Solves s σ'.plan d' ∧ (d' z).rows.Sublist (d z).rows ∧
          (t ≠ .forEach → d' z = d z)) := by
  obtain ⟨q, hopt, rfl⟩ := onPlan_eq_ok.mp hrun
  have hq := optimize_keeps_types hp hvalid hroom hconfig hopt ht hz
  refine ⟨node_refresh (σ := { σ with draft := { σ.draft with plan := q } }) hname hq.contains,
    fun hprune hfaithful s d hd => ?_⟩
  have hv := (validate_eq_ok hp.wellFormed hp.formulas).mp hvalid
  have hspec := Optimizer.optimize_spec hp hv hroom hconfig
  rw [hopt] at hspec
  obtain ⟨r, hto, hr, hqr⟩ := hspec
  rw [if_neg (by simp [hprune])] at hqr
  subst hqr
  obtain ⟨-, d', hsim⟩ := hto.simulates (hroom.canSplit hp hv) hfaithful hd
  refine ⟨d', hsim.solves, ?_, fun hne => hsim.means z t ht hne hz⟩
  by_cases hfor : t = .forEach
  · exact hsim.passed z (hfor ▸ hz)
  · rw [hsim.means z t ht hfor hz]

/-- A filter behind a `ForEach` that copies the only column. -/
def copyThenFilter : Session := Step.runAll
  [.register (.load "A" "/in" (some [.mk "x" "int" none])),
    .register (.forEach "P" "A" [{ expr := .mapping [(.string "col", .string "x")] }]),
    .register (.filter "F" "P"
      (.mapping [(.string "gt", .sequence [.mapping [(.string "col", .int 0)], .int 0])])),
    .register (.store "F" "/out")] { directory := "/" }

theorem copyThenFilter_sound : copyThenFilter.plan.Sound :=
  have hsown := Step.sown_of_history (s := copyThenFilter) (by decide) rfl
  ⟨hsown.plan.wellFormed, hsown.plan.keysBelow, formulasSound_of_vertices (by decide +kernel),
    hsown.plan.coherent⟩

theorem copyThenFilter_valid : copyThenFilter.plan.validate = .ok () := by decide +kernel

theorem copyThenFilter_hasRoom : copyThenFilter.plan.HasRoom := by decide +kernel

theorem copyThenFilter_staysFaithful : copyThenFilter.plan.StaysFaithful :=
  Traceable.staysFaithful (by decide +kernel) (copyThenFilter_hasRoom.canSplit copyThenFilter_sound
    ((validate_eq_ok copyThenFilter_sound.wellFormed copyThenFilter_sound.formulas).mp
      copyThenFilter_valid))

/-- The filter is moved in front of the `ForEach`, whose name goes on to mean it; it has no rows but
those that it had. -/
theorem copyThenFilter_names : ∃ report σ',
    onPlan ({ config := { pruneMapKeys := false } } : Optimizer).optimize copyThenFilter =
      .ok report σ' ∧
    report.applications = [("FilterAboveForeach", 1)] ∧ σ'.refresh.2.node "P" = .ok ⟨1⟩ ∧
    ∀ s d, Solves s copyThenFilter.plan d →
      ∃ d', Solves s σ'.plan d' ∧ (d' ⟨1⟩).rows.Sublist (d ⟨1⟩).rows := by
  have hruns : (Pass.result? (onPlan ({ config := { pruneMapKeys := false } } : Optimizer).optimize)
      copyThenFilter).map Report.applications = some [("FilterAboveForeach", 1)] := by
    decide +kernel
  obtain ⟨report, hreport, happlied⟩ := Option.map_eq_some_iff.mp hruns
  have hrun := Pass.eq_ok_after hreport
  have htype : copyThenFilter.plan.HasType ⟨1⟩ .forEach :=
    Option.map_eq_some_iff.mp (by decide +kernel)
  have hbound : copyThenFilter.draft.names["P"]? = some ⟨1⟩ := by decide +kernel
  obtain ⟨hname, hrows⟩ := optimize_keeps_names copyThenFilter_sound copyThenFilter_valid
    copyThenFilter_hasRoom rfl hrun hbound htype (by decide)
  refine ⟨report, _, hrun, happlied, hname, fun s d hd => ?_⟩
  obtain ⟨d', hd', hsub, -⟩ := hrows rfl copyThenFilter_staysFaithful s d hd
  exact ⟨d', hd', hsub⟩

end Session

end Dataflow

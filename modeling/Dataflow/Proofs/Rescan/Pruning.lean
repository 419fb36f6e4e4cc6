import Dataflow.Proofs.Plan.MapKeys
import Dataflow.Proofs.Rescan.Sources
import Dataflow.Proofs.Rewrite.Impassable

/-!
# Map keys of plans that differ in the keys of their filters

What is needed of columns is told by their identities. Plans that differ in the keys of their
filters only and have the same flow are gone through in the same order, and every request is
answered alike but for names (`Beside`). So the same keys are noted on the same loads
(`Counterparts.pruneMapKeys`).
-/

namespace Dataflow

open Dataflow.Graph

namespace Pass

variable {ε σ τ α β γ δ : Type} {R : σ → τ → Prop} {S : α → β → Prop} {T : γ → δ → Prop}

/-- Where both passes succeed in related states, they return related values and leave related
states. -/
def Alongside (R : σ → τ → Prop) (S : α → β → Prop) (x : EStateM ε σ α) (y : EStateM ε τ β) :
    Prop :=
  ∀ s t a s' b t', R s t → x s = .ok a s' → y t = .ok b t' → S a b ∧ R s' t'

namespace Alongside

theorem pure {a : α} {b : β} (h : S a b) :
    Alongside R S (pure a : EStateM ε σ α) (pure b : EStateM ε τ β) := by
  intro s t a s' b t' hR hx hy
  obtain ⟨rfl, rfl⟩ := EStateM.Result.ok.inj hx
  obtain ⟨rfl, rfl⟩ := EStateM.Result.ok.inj hy
  exact ⟨h, hR⟩

theorem get : Alongside R R (get : EStateM ε σ σ) (get : EStateM ε τ τ) := by
  intro s t a s' b t' hR hx hy
  obtain ⟨rfl, rfl⟩ := EStateM.Result.ok.inj hx
  obtain ⟨rfl, rfl⟩ := EStateM.Result.ok.inj hy
  exact ⟨hR, hR⟩

theorem ofResult {R : Plan → Plan → Prop} {r : Result α} {r' : Result β}
    (h : ∀ a b, r = .ok a → r' = .ok b → S a b) :
    Alongside R S (Plan.ofResult r) (Plan.ofResult r') := by
  intro s t a s' b t' hR hx hy
  obtain ⟨hr, rfl⟩ := Plan.ofResult_eq_ok.mp hx
  obtain ⟨hr', rfl⟩ := Plan.ofResult_eq_ok.mp hy
  exact ⟨h a b hr hr', hR⟩

theorem bind {x : EStateM ε σ α} {y : EStateM ε τ β} {f : α → EStateM ε σ γ} {g : β → EStateM ε τ δ}
    (hxy : Alongside R S x y) (hfg : ∀ a b, S a b → Alongside R T (f a) (g b)) :
    Alongside R T (x >>= f) (y >>= g) := by
  intro s t c s' d t' hR hx hy
  obtain ⟨a, s₁, ha, hx⟩ := bind_eq_ok.mp hx
  obtain ⟨b, t₁, hb, hy⟩ := bind_eq_ok.mp hy
  obtain ⟨hab, hR₁⟩ := hxy s t a s₁ b t₁ hR ha hb
  exact hfg a b hab s₁ t₁ c s' d t' hR₁ hx hy

theorem mapM {f : α → EStateM ε σ γ} {g : β → EStateM ε τ δ} {h : α → β} :
    ∀ {l : List α}, (∀ a ∈ l, Alongside R T (f a) (g (h a))) →
      Alongside R (List.Forall₂ T) (l.mapM f) ((l.map h).mapM g)
  | [], _ => by
    rw [List.map_nil, List.mapM_nil, List.mapM_nil]
    exact .pure .nil
  | a :: l, hl => by
    obtain ⟨ha, hl⟩ := List.forall_mem_cons.mp hl
    rw [List.map_cons, List.mapM_cons, List.mapM_cons]
    exact ha.bind fun c d hcd => (mapM hl).bind fun cs ds hcds => .pure (.cons hcd hcds)

end Alongside

end Pass

open Pass

namespace Schema

theorem allUids_unnamed : ∀ s : Schema, allUids (unnamed s) = allUids s
  | [] => rfl
  | f :: s => by
    obtain ⟨name, type, inner, uid, parents⟩ := f
    rw [unnamed_cons, Field.unnamed, allUids, allUids, allUids_unnamed s, Field.allUids,
      Field.allUids]

/-- The schemas are the same but for names. -/
abbrev Same (s t : Option Schema) : Prop := t.map unnamed = s.map unnamed

theorem Same.cases {s t : Option Schema} (h : Same s t) : s = none ∧ t = none ∨
    ∃ a b, s = some a ∧ t = some b ∧ unnamed b = unnamed a := by
  cases s <;> cases t <;> simp_all [Same]

end Schema

namespace Needs

variable {n : Needs} {s t : Schema}

theorem foldl_throughUnion_unnamed : ∀ (s : Schema) (n : Needs),
    (Schema.unnamed s).foldl throughUnion n = s.foldl throughUnion n
  | [], _ => rfl
  | f :: s, n => by
    rw [Schema.unnamed_cons, List.foldl_cons, List.foldl_cons, foldl_throughUnion_unnamed s]
    rfl

theorem tableFor_unnamed (s : Schema) (n : Needs) :
    n.tableFor (Schema.unnamed s) = n.tableFor s := by
  unfold tableFor Schema.unnamed
  rw [List.zipIdx_map, List.filterMap_map]
  rfl

end Needs

namespace Plan

variable {p q : Plan} {N : Net} {φ : Equiv.Perm NodeId} {x r id : NodeId} {n : Needs} {W : Flow}

/-- The plans are counterparts, one of them with this net. -/
structure Beside (φ : Equiv.Perm NodeId) (N : Net) (p q : Plan) : Prop
    extends Counterparts φ p q where
  net : p.net = N

namespace Beside

/-! ### Requests -/

theorem schema (hx : N.op x ≠ none) :
    Alongside (Beside φ N) Schema.Same (Plan.schema x) (Plan.schema (φ x)) := by
  intro p q s p' t q' h hs ht
  have hcontains : p.graph.contains x = true := by
    rw [← core?_ne_none, ← op_net, h.net]
    exact hx
  obtain ⟨r, hr⟩ := exists_under h.sound h.valid hcontains
  obtain ⟨W, hW, hW'⟩ := h.flow
  obtain ⟨hs', hp'⟩ := hW.schema (h.sound.ready h.valid) hr hs (Nat.le_refl _)
  obtain ⟨ht', hq'⟩ := hW'.schema (h.sound'.ready h.valid') (h.under hr) ht (Nat.le_of_eq h.size_eq)
  obtain ⟨hext, -⟩ := schema_eq_ok h.sound.coherent hs
  obtain ⟨hext', -⟩ := schema_eq_ok h.sound'.coherent ht
  exact ⟨ht'.symm.trans hs', h.extended hext hext' ⟨_, hp', hq'⟩, hext.alike.net_eq.trans h.net⟩

theorem dataInput_ne_none (h : Beside φ N p q) {y : NodeId} (hy : y ∈ p.dataInputs x) :
    N.op y ≠ none := by
  rw [← h.net, op_net, core?_ne_none]
  exact h.sound.wellFormed.source (mem_predecessors_of_mem_dataInputs hy)

theorem inputSchemas : Alongside (Beside φ N) (List.Forall₂ Schema.Same) (Plan.inputSchemas x)
    (Plan.inputSchemas (φ x)) := by
  unfold Plan.inputSchemas
  refine .bind .get fun p q h => ?_
  rw [h.dataInputs_eq]
  exact .mapM fun y hy => schema (h.dataInput_ne_none hy)

theorem columnUid {i j : Nat} :
    Alongside (Beside φ N) Eq (Plan.columnUid x i j) (Plan.columnUid (φ x) i j) := by
  unfold Plan.columnUid
  refine .bind .get fun p q h => ?_
  rw [h.dataInputs_eq, List.getElem?_map]
  cases hy : (p.dataInputs x)[i]? with
  | none => exact .pure rfl
  | some y =>
    refine .bind (schema (h.dataInput_ne_none (List.mem_of_getElem? hy))) fun s t hst => .pure ?_
    exact (Schema.uidAt?_unnamed s j).symm.trans (hst ▸ Schema.uidAt?_unnamed t j)

/-! ### What is needed -/

theorem needsOfUses : ∀ {uses : List ColumnUse} {n : Needs},
    Alongside (Beside φ N) Eq (Plan.needsOfUses x uses n) (Plan.needsOfUses (φ x) uses n)
  | [], _ => .pure rfl
  | .whole input i :: rest, n => by
    unfold Plan.needsOfUses
    refine .bind columnUid fun uid? _ heq => ?_
    subst heq
    cases uid? with
    | none => exact .pure rfl
    | some uid => exact needsOfUses
  | .key input i key :: rest, n => by
    unfold Plan.needsOfUses
    refine .bind columnUid fun uid? _ heq => ?_
    subst heq
    cases uid? with
    | none => exact .pure rfl
    | some uid => exact needsOfUses

theorem needsOfInputs_eq {ss ts : List (Option Schema)} (h : List.Forall₂ Schema.Same ss ts) :
    ∀ n, needsOfInputs n ts = needsOfInputs n ss := by
  induction h with
  | nil => exact fun _ => rfl
  | @cons s t ss ts hst _ ih =>
    intro n
    obtain ⟨rfl, rfl⟩ | ⟨a, b, rfl, rfl, hab⟩ := Schema.Same.cases hst
    · rfl
    · rw [needsOfInputs, needsOfInputs, ih, ← Schema.allUids_unnamed b, hab,
      Schema.allUids_unnamed a]

/-- Of which type the operator is. -/
theorem typeOf (h : Beside φ N p q) : Alongside (Beside φ N)
    (fun t t' => t' = t ∧ (t ≠ .filter → φ x = x))
    (ofResult (p.typeOf x)) (ofResult (q.typeOf (φ x))) := by
  refine .ofResult fun t t' ht ht' => ?_
  have ht := typeOf_eq_ok.mp ht
  exact ⟨(h.hasType_iff.mp (typeOf_eq_ok.mp ht')).unique ht, h.fixes ht⟩

theorem needsOfOperation (hx : N.op x ≠ none) :
    Alongside (Beside φ N) Eq (Plan.needsOfOperation x n) (Plan.needsOfOperation (φ x) n) := by
  unfold Plan.needsOfOperation
  refine .bind .get fun p q h => .bind h.typeOf fun t _ ht => ?_
  obtain ⟨rfl, -⟩ := ht
  split
  · exact .bind inputSchemas fun ss ts hst => .pure (needsOfInputs_eq hst n).symm
  · exact .bind inputSchemas fun ss ts hst => .pure (needsOfInputs_eq hst n).symm
  · refine .bind (schema hx) fun s t hst => ?_
    obtain ⟨rfl, rfl⟩ | ⟨a, b, rfl, rfl, hab⟩ := Schema.Same.cases hst
    · exact .pure rfl
    · refine .pure ?_
      rw [← Needs.foldl_throughUnion_unnamed b, hab, Needs.foldl_throughUnion_unnamed a]
  · exact .pure rfl

theorem operator (h : Beside φ N p q) :
    Alongside (Beside φ N) (fun a b : Operator => b.core = a.core)
      (ofResult (p.operator x)) (ofResult (q.operator (φ x))) := by
  refine .ofResult fun a b ha hb => ?_
  have heq := h.core?_eq (x := x)
  rw [Plan.core?, Plan.core?, operator_eq_ok.mp ha, operator_eq_ok.mp hb] at heq
  exact Option.some.inj heq

theorem needsOf : ∀ {l : List NodeId} {n : Needs}, (∀ x ∈ l, N.op x ≠ none) →
    Alongside (Beside φ N) Eq (Plan.needsOf l n) (Plan.needsOf (l.map φ) n)
  | [], _, _ => .pure rfl
  | x :: l, n, hl => by
    obtain ⟨hx, hl⟩ := List.forall_mem_cons.mp hl
    rw [List.map_cons]
    unfold Plan.needsOf
    refine .bind (needsOfOperation hx) fun n? _ heq => ?_
    subst heq
    cases n? with
    | none => exact .pure rfl
    | some n =>
      refine .bind .get fun p q h => .bind h.operator fun a b hab => ?_
      rw [formulas_eq_of_core hab]
      refine .bind needsOfUses fun n? _ heq => ?_
      subst heq
      cases n? with
      | none => exact .pure rfl
      | some n => exact needsOf hl

/-- Loads are found under the same keys. -/
theorem keyTables : ∀ {l : List NodeId}, (∀ x ∈ l, N.op x ≠ none) →
    Alongside (Beside φ N) Eq (Plan.keyTables n l) (Plan.keyTables n (l.map φ))
  | [], _ => .pure rfl
  | x :: l, hl => by
    obtain ⟨hx, hrest⟩ := List.forall_mem_cons.mp hl
    rw [List.map_cons]
    unfold Plan.keyTables
    refine .bind .get fun p q h => .bind h.typeOf fun t _ ht => ?_
    obtain ⟨rfl, hfix⟩ := ht
    split
    · exact keyTables hrest
    · rename_i hload
      rw [ne_eq, not_not] at hload
      refine .bind (schema hx) fun s t hst => ?_
      obtain ⟨rfl, rfl⟩ | ⟨a, b, rfl, rfl, hab⟩ := Schema.Same.cases hst
      · exact keyTables hrest
      · refine .bind (keyTables hrest) fun others _ heq => .pure ?_
        subst heq
        rw [hfix (by simp [hload]), ← Needs.tableFor_unnamed b, hab, Needs.tableFor_unnamed a]

/-- Both analyses find the same. -/
theorem analyzeMapKeys : Alongside (Beside φ N) Eq Plan.analyzeMapKeys Plan.analyzeMapKeys := by
  unfold Plan.analyzeMapKeys
  refine .bind .get fun p q h => .bind (S := fun l l' => l' = l.map φ ∧ ∀ x ∈ l, N.op x ≠ none)
    (.ofResult fun l l' hl hl' => ?_) fun l l' hl => ?_
  · have hl := orError_eq_ok.mp hl
    have hl' := orError_eq_ok.mp hl'
    unfold Graph.reverseTopologicalOrder at hl hl'
    obtain ⟨order, horder, rfl⟩ := Pass.except_map_eq_ok.mp hl
    obtain ⟨order', horder', rfl⟩ := Pass.except_map_eq_ok.mp hl'
    rw [h.topologicalOrder_eq, horder] at horder'
    obtain rfl := Except.ok.inj horder'
    refine ⟨List.map_reverse.symm, fun x hx => ?_⟩
    obtain ⟨-, hmem, -⟩ := topologicalOrder_spec h.sound.wellFormed horder
    rw [← h.net, op_net, core?_ne_none]
    exact (hmem x).mp (List.mem_reverse.mp hx)
  · obtain ⟨rfl, hl⟩ := hl
    refine .bind (needsOf hl) fun n? _ heq => ?_
    subst heq
    cases n? with
    | none => exact .pure rfl
    | some n =>
      rw [← List.map_reverse]
      exact .bind (keyTables fun x hx => hl x (List.mem_reverse.mp hx)) fun _ _ heq =>
        .pure (by rw [heq])

end Beside

/-! ## What is noted -/

/-- The operator without its derived schema. -/
def bare? (p : Plan) (x : NodeId) : Option Operator := (p.operator? x).map Operator.forget

/-- The plans are the same but for keys and derived schemas. -/
structure Rekeyed (φ : Equiv.Perm NodeId) (p q : Plan) : Prop where
  bare : ∀ x, q.bare? (φ x) = p.bare? x
  successors : ∀ x, q.graph.successors (φ x) = (p.graph.successors x).map φ
  predecessors : ∀ x, q.graph.predecessors (φ x) = (p.graph.predecessors x).map φ

theorem Rekeyed.isomorphism (h : Rekeyed φ p q) :
    Isomorphism (fun a b : Operator => b.forget = a.forget) p.graph q.graph φ := by
  have hcontains : ∀ x, q.graph.contains (φ x) = p.graph.contains x := fun x => by
    have := congrArg Option.isSome (h.bare x)
    rwa [bare?, bare?, Option.isSome_map, Option.isSome_map, operator?, operator?, content?_isSome,
      content?_isSome] at this
  refine ⟨⟨fun x hx => (hcontains x).trans hx, φ.injective.injOn, fun y hy => ?_⟩, fun x c hc => ?_,
    fun x _ => h.successors x, fun x _ => h.predecessors x⟩
  · refine ⟨φ.symm y, ?_, φ.apply_symm_apply y⟩
    have := hcontains (φ.symm y)
    rw [φ.apply_symm_apply] at this
    exact this.symm.trans hy
  · have hbare := h.bare x
    rw [bare?, bare?, show p.operator? x = some c from hc] at hbare
    exact Option.map_eq_some_iff.mp hbare

/-- Filters remember no identities, and the others are the same in the flow. -/
theorem Counterparts.rekeyed (h : Counterparts φ p q) : Rekeyed φ p q := by
  refine ⟨fun x => ?_, fun x => h.successors_eq, fun x => h.predecessors_eq⟩
  have hcore := h.core?_eq (x := x)
  cases hop : p.operator? x with
  | none =>
    rw [Plan.core?, Plan.core?, hop, Option.map_none, Option.map_eq_none_iff] at hcore
    rw [bare?, bare?, hop, hcore]
  | some op =>
    rw [Plan.core?, Plan.core?, hop, Option.map_some, Option.map_eq_some_iff] at hcore
    obtain ⟨op', hop', heq⟩ := hcore
    rw [bare?, bare?, hop, hop', Option.map_some, Option.map_some]
    by_cases hfilter : op.type = .filter
    · have hoperation : op'.operation = op.operation := by
        refine Operation.eq_of_withoutUids (congrArg Operator.operation heq) fun us hus => ?_
        have htype := (Operator.type_core op').symm.trans ((congrArg Operator.type heq).trans
          ((Operator.type_core op).trans hfilter))
        rw [Operator.type, hus] at htype
        cases htype
      have hname := congrArg (fun op : Operator => op.name) heq
      rw [Operator.name_core, Operator.name_core] at hname
      unfold Operator.forget
      rw [hoperation, hname]
    · obtain ⟨W, hW, hW'⟩ := h.flow
      have hfix := h.fixes ⟨op, hop, rfl⟩ hfilter
      have hlast := lasting_eq_some.mpr ⟨op, hop, hfilter, rfl⟩
      rw [← hW.op, hW'.op] at hlast
      obtain ⟨op₁, hop₁, -, hforget⟩ := lasting_eq_some.mp hlast
      rw [hfix] at hop'
      obtain rfl := Option.some.inj (hop'.symm.trans hop₁)
      rw [hforget]

theorem bare?_invalidate : (p.invalidate id).bare? x = p.bare? x := by
  rw [bare?, bare?, show p.invalidate id = p.forgetAt _ from rfl, operator?_forgetAt]
  split
  · rw [Option.map_map]
    rfl
  · rfl

/-- What changing an operator comes to, if the change has nothing to do with derived schemas. -/
theorem bare?_of_update {note : Operator → Operator} {u : Unit}
    (hnote : ∀ op, (note op).forget = note op.forget) (h : update id note p = .ok u q) :
    (∀ x, q.bare? x = if x = id then (p.bare? x).map note else p.bare? x) ∧
      (∀ x, q.graph.successors x = p.graph.successors x) ∧
      ∀ x, q.graph.predecessors x = p.graph.predecessors x := by
  unfold Plan.update at h
  rw [Pass.bind_of_ok Pass.get_apply] at h
  by_cases hid : p.contains id = true
  · rw [if_pos hid] at h
    obtain ⟨-, rfl⟩ := EStateM.Result.ok.inj h
    have halike := Alike.invalidate (p := p) (x := id)
    refine ⟨fun x => ?_, fun x => successors_update.trans (halike.successors x), fun x =>
      predecessors_update.trans (halike.predecessors x)⟩
    have hop : operator? { p.invalidate id with graph := (p.invalidate id).graph.update id note }
        x = if x = id then ((p.invalidate id).operator? x).map note
          else (p.invalidate id).operator? x := content?_update
    rw [bare?, hop, ← (bare?_invalidate : (p.invalidate id).bare? x = p.bare? x)]
    split
    · rw [bare?, Option.map_map, Option.map_map]
      exact congrArg (fun f => Option.map f _) (funext hnote)
    · rfl
  · rw [if_neg hid] at h
    cases h

theorem Rekeyed.annotate {table : KeyTable} (hid : φ id = id) :
    Alongside (Rekeyed φ) Eq (Plan.annotate id table) (Plan.annotate id table) := by
  intro p q _ p' _ q' h hp hq
  obtain ⟨note, hnote, hupdate⟩ : ∃ note : Operator → Operator,
      (∀ op, (note op).forget = note op.forget) ∧ Plan.annotate id table = update id note := by
    refine ⟨_, fun op => ?_, rfl⟩
    cases ho : op.operation <;> simp [Operator.forget, ho]
  rw [hupdate] at hp hq
  obtain ⟨hbare, hsuc, hpre⟩ := bare?_of_update hnote hp
  obtain ⟨hbare', hsuc', hpre'⟩ := bare?_of_update hnote hq
  refine ⟨rfl, fun x => ?_, fun x => by rw [hsuc, hsuc', h.successors], fun x => by
    rw [hpre, hpre', h.predecessors]⟩
  have hiff : φ x = id ↔ x = id :=
    ⟨fun heq => φ.injective (heq.trans hid.symm), fun heq => heq ▸ hid⟩
  rw [hbare, hbare', h.bare]
  simp only [hiff]

theorem Rekeyed.annotateAll : ∀ {tables : List (NodeId × KeyTable)}, (∀ x ∈ tables, φ x.1 = x.1) →
    Alongside (Rekeyed φ) Eq (tables.forM fun (id, table) => Plan.annotate id table)
      (tables.forM fun (id, table) => Plan.annotate id table)
  | [], _ => .pure rfl
  | (id, table) :: tables, hall => by
    obtain ⟨hid, hall⟩ := List.forall_mem_cons.mp hall
    rw [Pass.forM_cons]
    exact (Rekeyed.annotate hid).bind fun _ _ _ => Rekeyed.annotateAll hall

/-- The same keys are noted on counterparts. -/
theorem Counterparts.pruneMapKeys (h : Counterparts φ p q) {k k' : Nat} {p' q' : Plan}
    (hp : Plan.pruneMapKeys p = .ok k p') (hq : Plan.pruneMapKeys q = .ok k' q') :
    k' = k ∧ Rekeyed φ p' q' := by
  unfold Plan.pruneMapKeys at hp hq
  obtain ⟨found, p₁, hfound, hp⟩ := Pass.bind_eq_ok.mp hp
  obtain ⟨found', q₁, hfound', hq⟩ := Pass.bind_eq_ok.mp hq
  obtain ⟨rfl, h₁⟩ := Beside.analyzeMapKeys p q found p₁ found' q₁ ⟨h, rfl⟩ hfound hfound'
  have hspec := analyzeMapKeys_spec (h.sound.ready h.valid)
  rw [hfound] at hspec
  cases found with
  | none =>
    obtain ⟨rfl, rfl⟩ := EStateM.Result.ok.inj hp
    obtain ⟨rfl, rfl⟩ := EStateM.Result.ok.inj hq
    exact ⟨rfl, h₁.rekeyed⟩
  | some tables =>
    obtain ⟨-, order, n, -, -, htables⟩ := hspec
    obtain ⟨u, p₂, hnote, hlast⟩ := Pass.bind_eq_ok.mp hp
    obtain ⟨u', q₂, hnote', hlast'⟩ := Pass.bind_eq_ok.mp hq
    obtain ⟨rfl, rfl⟩ := EStateM.Result.ok.inj hlast
    obtain ⟨rfl, rfl⟩ := EStateM.Result.ok.inj hlast'
    exact ⟨rfl, (Rekeyed.annotateAll (fun x hx => h.fixes (htables x hx).1 (by simp)) p₁ q₁ u p₂
      u' q₂ h₁.rekeyed hnote hnote').2⟩

end Plan

end Dataflow

import Dataflow.Plan.MapKeys
import Dataflow.Plan.Schemas
import Dataflow.Proofs.Graph.Reach
import Dataflow.Proofs.Plan.Valid

/-!
# Derived schemas are never stale

A plan is `Coherent` if every derived schema is what deriving it again from the derived schemas of
the inputs gives. Forgetting the schemas behind an operator keeps a plan coherent, and so does any
change that stays within what was forgotten (`Coherent.of_frame`); deriving one more schema does,
too (`Coherent.deriveOne`).
-/

namespace Dataflow.Plan

section

open Dataflow.Graph

variable {p q : Plan} {id x y : NodeId} {op : Operator} {s : Option Schema} {ids : List NodeId}

/-! ## Views -/

/-- The derived schema of an operator, if there is one; it may have turned out to be unknown. -/
def memoOf (p : Plan) (id : NodeId) : Option (Option Schema) := (p.operator? id).bind Operator.memo

/-- The name of an operator. -/
def nameOf (p : Plan) (id : NodeId) : Option String := (p.operator? id).bind Operator.name

theorem dataInputs_eq : p.dataInputs id =
    match p.operator? id with
    | some op => if op.type = .load then [] else p.graph.predecessors id
    | none => [] := by
  unfold dataInputs Plan.operator? content? Graph.predecessors
  cases p.graph.vertices[id]? with
  | none => rfl
  | some v => rfl

theorem dataInputs_of_operator? (h : p.operator? id = some op) :
    p.dataInputs id = if op.type = .load then [] else p.graph.predecessors id := by
  rw [dataInputs_eq, h]

/-- Only a load has no data inputs. -/
theorem Valid.dataInputs_ne_nil (hv : p.Valid) (hop : p.operator? id = some op)
    (hload : op.type ≠ .load) : p.dataInputs id ≠ [] := by
  have henough := ((hv.operators id op hop).other hload).enough
  have hmin : 1 ≤ op.type.minInputs := by
    cases ht : op.type <;> simp [OperatorType.minInputs]
    exact absurd ht hload
  rw [dataInputs_of_operator? hop, if_neg hload]
  rintro hnil
  rw [hnil] at henough
  exact absurd (Nat.le_trans hmin henough) (by simp)

theorem mem_predecessors_of_mem_dataInputs (h : x ∈ p.dataInputs id) :
    x ∈ p.graph.predecessors id := by
  rw [dataInputs_eq] at h
  split at h
  · split at h
    · simp at h
    · exact h
  · simp at h

theorem dataInputs_congr (hpre : q.graph.predecessors id = p.graph.predecessors id)
    (hcore : (q.operator? id).map Operator.core = (p.operator? id).map Operator.core) :
    q.dataInputs id = p.dataInputs id := by
  rw [dataInputs_eq, dataInputs_eq, hpre]
  cases hq : q.operator? id with
  | none =>
    rw [hq] at hcore
    rw [Option.map_eq_none_iff.mp hcore.symm]
  | some b =>
    rw [hq] at hcore
    obtain ⟨a, ha, hab⟩ := Option.map_eq_some_iff.mp hcore.symm
    rw [ha]
    dsimp only
    rw [type_eq_of_core hab]

theorem Alike.dataInputs (h : Alike p q) : q.dataInputs id = p.dataInputs id :=
  dataInputs_congr (h.predecessors id) (h.core id)

theorem Alike.nameOf (h : Alike p q) : q.nameOf id = p.nameOf id := by
  have := congrArg (Option.bind · Operator.name) (h.core id)
  simpa [Plan.nameOf, Option.bind_map, Function.comp_def] using this

theorem derivedInputs_eq_ok {schemas : List (Option Schema)} {names : List (Option String)} :
    ∀ {l : List NodeId}, p.derivedInputs x l = .ok (schemas, names) ↔
      (∀ q ∈ l, (p.memoOf q).isSome) ∧ schemas = l.map (fun q => (p.memoOf q).join) ∧
        names = l.map p.nameOf := by
  intro l
  induction l generalizing schemas names with
  | nil =>
    simp only [derivedInputs, Except.ok.injEq, Prod.mk.injEq, List.map_nil, List.not_mem_nil,
      false_implies, implies_true, true_and]
    exact and_congr eq_comm eq_comm
  | cons q l ih =>
    unfold derivedInputs
    cases hop : p.operator? q with
    | none =>
      cases hr : p.operator q with
      | ok op' => rw [operator_eq_ok, hop] at hr; simp at hr
      | error e => simp [memoOf, hop]
    | some op =>
      rw [operator_eq_ok.mpr hop, Pass.except_ok_bind]
      cases hm : op.memo with
      | none => simp [memoOf, hop, hm]
      | some s =>
        simp only [Pass.except_bind_eq_ok, Prod.exists, ih, Pass.except_pure, Except.ok.injEq,
          Prod.mk.injEq, List.forall_mem_cons, List.map_cons, memoOf, hop, Option.bind_some, hm,
          Option.isSome_some, true_and, nameOf]
        constructor
        · rintro ⟨ss, ns, ⟨hall, rfl, rfl⟩, rfl, rfl⟩
          exact ⟨hall, rfl, rfl⟩
        · rintro ⟨hall, rfl, rfl⟩
          exact ⟨_, _, ⟨hall, rfl, rfl⟩, rfl, rfl⟩

/-! ## Forgetting -/

theorem operator?_forgetAt : (p.forgetAt ids).operator? x =
    if x ∈ ids then (p.operator? x).map Operator.forget else p.operator? x := by
  induction ids generalizing p with
  | nil => simp [forgetAt]
  | cons id ids ih =>
    have hstep : p.forgetAt (id :: ids) =
        forgetAt { p with graph := p.graph.update id Operator.forget } ids := rfl
    have hview : operator? { p with graph := p.graph.update id Operator.forget } x =
        if x = id then (p.operator? x).map Operator.forget else p.operator? x := content?_update
    rw [hstep, ih, hview]
    by_cases hx : x = id
    · subst hx
      cases p.operator? x <;> simp [Operator.forget]
    · simp [hx]

theorem Alike.forgetAt : Alike p (p.forgetAt ids) := by
  have hgraph : ∀ (l : List NodeId) (g : Graph Operator),
      let g' := l.foldl (fun g id => g.update id Operator.forget) g
      g'.ids = g.ids ∧ g'.nextKey = g.nextKey ∧ (∀ id, g'.successors id = g.successors id) ∧
        ∀ id, g'.predecessors id = g.predecessors id := by
    intro l
    induction l with
    | nil => intro g; simp
    | cons a l ih =>
      intro g
      obtain ⟨h1, h2, h3, h4⟩ := ih (g.update a Operator.forget)
      refine ⟨h1, h2, fun id => ?_, fun id => ?_⟩
      · exact (h3 id).trans successors_update
      · exact (h4 id).trans predecessors_update
  obtain ⟨h1, h2, h3, h4⟩ := hgraph ids p.graph
  refine ⟨h1, h2, h3, h4, fun id => ?_⟩
  rw [operator?_forgetAt]
  split
  · rw [Option.map_map]; rfl
  · rfl

theorem memoOf_forgetAt :
    (p.forgetAt ids).memoOf x = if x ∈ ids then none else p.memoOf x := by
  unfold memoOf
  rw [operator?_forgetAt]
  split
  · cases p.operator? x <;> rfl
  · rfl

theorem Alike.invalidate : Alike p (p.invalidate x) := .forgetAt

theorem memoOf_invalidate :
    (p.invalidate id).memoOf x = if x ∈ p.graph.descendants id then none else p.memoOf x :=
  memoOf_forgetAt

/-! ## Coherence -/

/-- Deriving the schema of any operator that has one again, from those of its inputs, gives the same
schema and takes no identities. -/
def Coherent (p : Plan) : Prop :=
  ∀ id op s, p.operator? id = some op → op.memo = some s →
    (∀ q ∈ p.dataInputs id, (p.memoOf q).isSome) ∧
      ∀ supply, op.deriveSchema ((p.dataInputs id).map fun q => (p.memoOf q).join)
        ((p.dataInputs id).map p.nameOf) supply = .ok (s, op.operation, supply)

/-- A change stays coherent if nothing is derived where it happened, and the place of the change is
closed along edges. -/
theorem Coherent.of_frame (hp : p.Coherent) (hwf : p.graph.WellFormed) {S : NodeId → Prop}
    (hclosed : ∀ x, S x → ∀ y ∈ p.graph.successors x, S y)
    (hnone : ∀ x, S x → q.memoOf x = none)
    (hsame : ∀ x, ¬S x → q.operator? x = p.operator? x ∧ q.dataInputs x = p.dataInputs x) :
    q.Coherent := by
  intro id op s hop hs
  have hid : ¬S id := fun hc => by
    have := hnone id hc
    rw [memoOf, hop] at this
    simp [hs] at this
  obtain ⟨hop', hins⟩ := hsame id hid
  rw [hop] at hop'
  have hq : ∀ x ∈ p.dataInputs id, q.operator? x = p.operator? x := fun x hx =>
    (hsame x fun hc => hid (hclosed x hc id
      ((hwf.edge x id).mpr (mem_predecessors_of_mem_dataInputs hx)))).1
  have hmemo : ∀ x ∈ p.dataInputs id, q.memoOf x = p.memoOf x := fun x hx => by
    rw [memoOf, memoOf, hq x hx]
  have hname : ∀ x ∈ p.dataInputs id, q.nameOf x = p.nameOf x := fun x hx => by
    rw [nameOf, nameOf, hq x hx]
  obtain ⟨hall, hderive⟩ := hp id op s hop'.symm hs
  rw [hins]
  refine ⟨fun x hx => by rw [hmemo x hx]; exact hall x hx, fun supply => ?_⟩
  rw [List.map_congr_left fun x hx => congrArg Option.join (hmemo x hx),
    List.map_congr_left hname]
  exact hderive supply

theorem Coherent.invalidate (hp : p.Coherent) (hwf : p.graph.WellFormed) :
    (p.invalidate id).Coherent := by
  refine hp.of_frame hwf (S := (· ∈ p.graph.descendants id))
    (fun x hx y hy => hwf.mem_descendants hx hy) (fun x hx => ?_) fun x hx => ⟨?_, ?_⟩
  · rw [memoOf_invalidate, if_pos hx]
  · change (p.forgetAt _).operator? x = _
    rw [operator?_forgetAt, if_neg hx]
  · exact Alike.invalidate.dataInputs

/-! ## Deriving -/

theorem length_takeUids : ∀ (n : Nat) (supply : UidSupply),
    (Operator.takeUids n supply).1.length = n
  | 0, _ => rfl
  | n + 1, supply => by simp [Operator.takeUids, length_takeUids n]

/-- The identities that a union has chosen are kept from then on. -/
theorem unionSchema_again {chosen uids : List Uid} {inputs : Expr.Inputs}
    {supply supply' : UidSupply} (h : Operator.unionSchema chosen inputs supply =
      (s, uids, supply')) (again : UidSupply) :
    Operator.unionSchema uids inputs again = (s, uids, again) := by
  unfold Operator.unionSchema at h ⊢
  cases hk : Operator.allKnown? inputs with
  | none => rw [hk] at h; simp_all
  | some known =>
    rw [hk] at h
    dsimp only at h ⊢
    cases hm : Operator.mergeAll? known with
    | none => rw [hm] at h; simp_all
    | some merged =>
      rw [hm] at h
      dsimp only at h ⊢
      have hlen : (Operator.unionUids chosen merged.length supply).1.length = merged.length := by
        unfold Operator.unionUids
        split
        · assumption
        · exact length_takeUids _ _
      obtain ⟨rfl, rfl, rfl⟩ : _ ∧ _ ∧ _ := by simpa only [Prod.mk.injEq] using h
      have hagain : ∀ us : List Uid, us.length = merged.length →
          Operator.unionUids us merged.length again = (us, again) := fun us hus => if_pos hus
      rw [hagain _ hlen]

/-- Deriving a schema changes an operation in the identities of a union only, and deriving it once
more gives the same. -/
theorem deriveSchema_again {inputs : Expr.Inputs} {names : List (Option String)}
    {supply supply' : UidSupply} {o : Operation} (memo : Option (Option Schema))
    (h : op.deriveSchema inputs names supply = .ok (s, o, supply')) :
    o.withoutUids = op.operation.withoutUids ∧ ∀ again,
      Operator.deriveSchema { op with operation := o, memo } inputs names again =
        .ok (s, o, again) := by
  unfold Operator.deriveSchema at h ⊢
  cases hop : op.operation with
  | union chosen =>
    rw [hop] at h
    obtain ⟨hs, rfl, hsup⟩ : _ ∧ _ ∧ _ := by simpa using h
    refine ⟨rfl, fun again => ?_⟩
    have := unionSchema_again (s := s)
      (by rw [← hs]) again
    simp [this]
  | load l =>
    rw [hop] at h
    obtain ⟨rfl, rfl, -⟩ : _ ∧ _ ∧ _ := by simpa using h
    exact ⟨rfl, fun again => rfl⟩
  | cross =>
    rw [hop] at h
    obtain ⟨t, ht, h⟩ := Pass.except_bind_eq_ok.mp h
    obtain ⟨rfl, rfl, -⟩ : _ ∧ _ ∧ _ := by simpa using h
    have hdesc : Operator.describe { op with operation := .cross, memo } = op.describe := by
      rw [← hop]; rfl
    exact ⟨rfl, fun again => by simp [hdesc, ht]⟩
  | join t keys =>
    rw [hop] at h
    obtain ⟨u, hu, h⟩ := Pass.except_bind_eq_ok.mp h
    obtain ⟨rfl, rfl, -⟩ : _ ∧ _ ∧ _ := by simpa using h
    have hdesc : Operator.describe { op with operation := .join t keys, memo } = op.describe := by
      rw [← hop]; rfl
    exact ⟨rfl, fun again => by simp [hdesc, hu]⟩
  | forEach items =>
    rw [hop] at h
    obtain ⟨u, hu, h⟩ := Pass.except_bind_eq_ok.mp h
    obtain ⟨rfl, rfl, -⟩ : _ ∧ _ ∧ _ := by simpa using h
    have hdesc : Operator.describe { op with operation := .forEach items, memo } =
        op.describe := by
      rw [← hop]; rfl
    exact ⟨rfl, fun again => by simp [hdesc, hu]⟩
  | _ =>
    rw [hop] at h
    obtain ⟨rfl, rfl, -⟩ : _ ∧ _ ∧ _ := by simpa using h
    exact ⟨rfl, fun again => rfl⟩

/-- The plan in which the schema of an operator was derived. -/
def withSchema (p : Plan) (id : NodeId) (s : Option Schema) (o : Operation) (supply : UidSupply) :
    Plan :=
  { uids := supply
    graph := p.graph.update id fun op => { op with operation := o, memo := some s } }

/-- What deriving one schema does. -/
theorem deriveOne_eq_ok {u : Unit} : deriveOne id p = .ok u q ↔
    ∃ op s o supply, p.operator? id = some op ∧ (∀ x ∈ p.dataInputs id, (p.memoOf x).isSome) ∧
      op.deriveSchema ((p.dataInputs id).map fun x => (p.memoOf x).join)
        ((p.dataInputs id).map p.nameOf) p.uids = .ok (s, o, supply) ∧
      q = p.withSchema id s o supply := by
  unfold deriveOne
  rw [Pass.bind_of_ok Pass.get_apply]
  simp only [Pass.bind_eq_ok, ofResult_eq_ok, Pass.set_apply, operator_eq_ok, Prod.exists,
    EStateM.Result.ok.injEq, true_and]
  constructor
  · rintro ⟨schemas, names, _, ⟨hins, rfl⟩, op, _, ⟨hop, rfl⟩, s, o, supply, _, ⟨hd, rfl⟩, rfl⟩
    obtain ⟨hall, rfl, rfl⟩ := derivedInputs_eq_ok.mp hins
    exact ⟨op, s, o, supply, hop, hall, hd, rfl⟩
  · rintro ⟨op, s, o, supply, hop, hall, hd, rfl⟩
    exact ⟨_, _, p, ⟨derivedInputs_eq_ok.mpr ⟨hall, rfl, rfl⟩, rfl⟩, op, p, ⟨hop, rfl⟩, s, o,
      supply, p, ⟨hd, rfl⟩, rfl⟩

theorem deriveOne_eq_error {e : Error} (h : deriveOne id p = .error e q) : q = p := by
  unfold deriveOne at h
  rw [Pass.bind_of_ok Pass.get_apply] at h
  simp only [Pass.bind_eq_error, ofResult_eq_error, ofResult_eq_ok, Pass.set_apply, reduceCtorEq,
    and_false, exists_false, or_false] at h
  rcases h with ⟨-, h⟩ | ⟨_, _, ⟨-, rfl⟩, ⟨-, h⟩ | ⟨_, _, ⟨-, rfl⟩, -, h⟩⟩ <;> exact h.symm

section Derived

variable {o : Operation} {supply : UidSupply}

theorem operator?_withSchema : (p.withSchema id s o supply).operator? x =
    if x = id then (p.operator? x).map fun op => { op with operation := o, memo := some s }
      else p.operator? x :=
  content?_update

theorem memoOf_withSchema (hop : p.operator? id = some op) :
    (p.withSchema id s o supply).memoOf x = if x = id then some s else p.memoOf x := by
  rw [memoOf, operator?_withSchema]
  by_cases hx : x = id
  · subst hx; simp [hop]
  · simp [hx, memoOf]

end Derived

theorem Alike.deriveOne {u : Unit} (h : deriveOne id p = .ok u q) : Alike p q := by
  obtain ⟨op, s, o, supply, hop, -, hd, rfl⟩ := deriveOne_eq_ok.mp h
  refine ⟨rfl, rfl, fun _ => successors_update, fun _ => predecessors_update, fun x => ?_⟩
  rw [operator?_withSchema]
  by_cases hx : x = id
  · subst hx
    have := (deriveSchema_again none hd).1
    simp [hop, Operator.core, this]
  · simp [hx]

/-- A plan in which more schemas were derived than in another one. -/
structure Extends (p q : Plan) : Prop where
  alike : Alike p q
  coherent : q.Coherent
  memo : ∀ x s, p.memoOf x = some s → q.memoOf x = some s

theorem Extends.refl (h : p.Coherent) : Extends p p := ⟨.refl, h, fun _ _ hs => hs⟩

theorem Extends.trans {r : Plan} (h : Extends p q) (h' : Extends q r) : Extends p r :=
  ⟨h.alike.trans h'.alike, h'.coherent, fun x s hs => h'.memo x s (h.memo x s hs)⟩

theorem Extends.deriveOne {u : Unit} (hp : p.Coherent)
    (h : deriveOne id p = .ok u q) : Extends p q ∧ (q.memoOf id).isSome := by
  have halike := Alike.deriveOne h
  obtain ⟨op, s, o, supply, hop, hall, hd, rfl⟩ := deriveOne_eq_ok.mp h
  have hagain := fun again => (deriveSchema_again (some s) hd).2 again
  -- what had a schema keeps it, since deriving it again gives the same
  have hmemo : ∀ x t, p.memoOf x = some t → (if x = id then some s else p.memoOf x) = some t := by
    intro x t ht
    by_cases hx : x = id
    · subst hx
      rw [memoOf, hop, Option.bind_some] at ht
      have := (hp x op t hop ht).2 p.uids
      rw [hd] at this
      simp only [Except.ok.injEq, Prod.mk.injEq] at this
      simp [this.1]
    · simpa [hx] using ht
  refine ⟨⟨halike, fun x opx t hopx ht => ?_, fun x t ht => ?_⟩, ?_⟩
  · rw [operator?_withSchema] at hopx
    have hsome : ∀ z, (p.memoOf z).isSome →
        (p.withSchema id s o supply).memoOf z = p.memoOf z := fun z hz => by
      obtain ⟨t, ht⟩ := Option.isSome_iff_exists.mp hz
      rw [memoOf_withSchema hop, hmemo z t ht, ht]
    have hins : (∀ z ∈ p.dataInputs x, (p.memoOf z).isSome) ∧ ∀ again, opx.deriveSchema
        ((p.dataInputs x).map fun z => (p.memoOf z).join) ((p.dataInputs x).map p.nameOf) again =
          .ok (t, opx.operation, again) := by
      by_cases hx : x = id
      · subst hx
        obtain rfl : _ = opx := by simpa [hop] using hopx
        obtain rfl : s = t := by simpa using ht
        exact ⟨hall, hagain⟩
      · rw [if_neg hx] at hopx
        exact hp x opx t hopx ht
    rw [halike.dataInputs]
    refine ⟨fun z hz => by rw [hsome z (hins.1 z hz)]; exact hins.1 z hz, fun again => ?_⟩
    rw [List.map_congr_left fun z hz => congrArg Option.join (hsome z (hins.1 z hz)),
      List.map_congr_left fun z _ => halike.nameOf]
    exact hins.2 again
  · rw [memoOf_withSchema hop, hmemo x t ht]
  · rw [memoOf_withSchema hop, if_pos rfl]; rfl

end

/-!
## What asking for schemas keeps

Whoever asks for a schema has some operators derived and changes nothing else. So a property that
deriving one operator keeps (`KeptByDeriving`) is kept by every question about schemas and by the
analysis of map keys, however they end. No assumption on the plan is needed.
-/

section

open Pass (Keeps)

/-- Deriving an operator keeps the property, whether or not it succeeds. -/
def KeptByDeriving (I : Plan → Prop) : Prop := ∀ id, Keeps I (deriveOne id)

variable {I : Plan → Prop} {id : NodeId} {n : Needs}

theorem keeps_ofResult {β : Type} {r : Result β} : Keeps I (ofResult r) := by
  cases r with
  | ok b => exact .pure
  | error e => exact .throw

/-- An operator that cannot be derived leaves the plan alone, so that only success is to be looked
at. -/
theorem KeptByDeriving.of_ok (h : ∀ p q id, I p → deriveOne id p = .ok () q → I q) :
    KeptByDeriving I := by
  intro id p hp
  unfold Pass.after
  cases hrun : deriveOne id p with
  | ok u q => exact h p q id hp hrun
  | error e q =>
    rw [deriveOne_eq_error hrun]
    exact hp

namespace KeptByDeriving

/-! ### Questions -/

theorem schema (h : KeptByDeriving I) : Keeps I (Plan.schema id) := by
  unfold Plan.schema
  refine .bind .get fun p => .bind keeps_ofResult fun op => ?_
  cases op.memo with
  | some s => exact .pure
  | none =>
    refine .bind (.forM h _) fun _ => ?_
    exact .bind .get fun q => .bind keeps_ofResult fun _ => .pure

theorem inputSchemas (h : KeptByDeriving I) : Keeps I (Plan.inputSchemas id) :=
  .bind .get fun _ => .mapM (fun _ => h.schema) _

theorem columnUid (h : KeptByDeriving I) {i j : Nat} : Keeps I (Plan.columnUid id i j) := by
  unfold Plan.columnUid
  refine .bind .get fun p => ?_
  cases (p.dataInputs id)[i]? with
  | none => exact .pure
  | some q => exact .bind h.schema fun s => .pure

theorem columnUids (h : KeptByDeriving I) : ∀ (columns : List (Nat × Nat)) (uids : List Uid),
    Keeps I (Plan.columnUids id columns uids) := by
  intro columns
  induction columns with
  | nil => exact fun _ => .pure
  | cons c columns ih =>
    obtain ⟨i, j⟩ := c
    intro uids
    unfold Plan.columnUids
    refine .bind h.columnUid fun found => ?_
    cases found with
    | none => exact .pure
    | some uid => exact ih _

theorem formulaUids (h : KeptByDeriving I) {f : Formula} : Keeps I (Plan.formulaUids id f) :=
  h.columnUids _ _

/-! ### The analysis of map keys -/

theorem needsOfUses (h : KeptByDeriving I) : ∀ (uses : List ColumnUse) (n : Needs),
    Keeps I (Plan.needsOfUses id uses n) := by
  intro uses
  induction uses with
  | nil => exact fun _ => .pure
  | cons use uses ih =>
    intro n
    cases use with
    | whole i j =>
      unfold Plan.needsOfUses
      refine .bind h.columnUid fun found => ?_
      cases found with
      | none => exact .pure
      | some uid => exact ih _
    | key i j key =>
      unfold Plan.needsOfUses
      refine .bind h.columnUid fun found => ?_
      cases found with
      | none => exact .pure
      | some uid => exact ih _

theorem needsOfOperation (h : KeptByDeriving I) : Keeps I (Plan.needsOfOperation id n) := by
  unfold Plan.needsOfOperation
  refine .bind .get fun p => .bind keeps_ofResult fun t => ?_
  split
  · exact .bind h.inputSchemas fun ss => .pure
  · exact .bind h.inputSchemas fun ss => .pure
  · refine .bind h.schema fun s => ?_
    cases s <;> exact .pure
  · exact .pure

theorem needsOf (h : KeptByDeriving I) :
    ∀ (l : List NodeId) (n : Needs), Keeps I (Plan.needsOf l n) := by
  intro l
  induction l with
  | nil => exact fun _ => .pure
  | cons id l ih =>
    intro n
    unfold Plan.needsOf
    refine .bind h.needsOfOperation fun found => ?_
    cases found with
    | none => exact .pure
    | some n =>
      refine .bind .get fun p => .bind keeps_ofResult fun op => ?_
      refine .bind (h.needsOfUses _ _) fun found => ?_
      cases found with
      | none => exact .pure
      | some n => exact ih n

theorem keyTables (h : KeptByDeriving I) : ∀ l : List NodeId, Keeps I (Plan.keyTables n l) := by
  intro l
  induction l with
  | nil => exact .pure
  | cons id l ih =>
    unfold Plan.keyTables
    refine .bind .get fun p => .bind keeps_ofResult fun t => ?_
    split
    · exact ih
    refine .bind h.schema fun s => ?_
    cases s with
    | none => exact ih
    | some s => exact .bind ih fun others => .pure

theorem analyzeMapKeys (h : KeptByDeriving I) : Keeps I Plan.analyzeMapKeys := by
  unfold Plan.analyzeMapKeys
  refine .bind .get fun p => .bind keeps_ofResult fun order => ?_
  refine .bind (h.needsOf _ _) fun found => ?_
  cases found with
  | none => exact .pure
  | some n => exact .bind (h.keyTables _) fun tables => .pure

/-- If the notes on the loads keep the property, too, then so does the whole pass. -/
theorem pruneMapKeys (h : KeptByDeriving I) (hnote : ∀ id table, Keeps I (annotate id table)) :
    Keeps I Plan.pruneMapKeys := by
  unfold Plan.pruneMapKeys
  refine .bind h.analyzeMapKeys fun found => ?_
  cases found with
  | none => exact .pure
  | some tables => exact .bind (.forM (fun _ => hnote _ _) tables) fun _ => .pure

end KeptByDeriving

end

end Dataflow.Plan

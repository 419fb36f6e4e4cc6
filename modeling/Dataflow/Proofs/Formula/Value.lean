import Dataflow.Proofs.Formula.Conjunction

/-!
# Values of conjunctions and of columns

What the values of the formulas are that rewriting makes: of a conjunction, by the values of its
parts; of a plain column; and of a formula whose columns were moved to other places, on rows that
hold the same cells there. `weight` counts the terms of a formula as often as they are used; a
conjunction weighs one more than its parts, so that rewriting cannot make formulas grow without
bound.
-/

namespace Dataflow

namespace Formula

open Dataflow.Graph

variable {f f' a b c : Formula} {rows rows' : Rows} {root x : NodeId} {k : Bool}

/-! ## Values -/

/-- The value of a node of a formula. -/
def valueAt (f : Formula) (rows : Rows) (id : NodeId) : RunResult Value :=
  f.compute (fun _ => valueNode rows default) (fun id => .error (.core (.graph (.unknownNode id))))
    id

theorem value_of_root (h : f.root = .ok root) : f.value rows = f.valueAt rows root := by
  unfold value
  rw [h]
  rfl

theorem IsConjunction.value (h : IsConjunction c a b) :
    c.value rows = connective false (a.value rows) (b.value rows) := by
  obtain ⟨root, rootA, rootB, hc, ha, hb, hcompute⟩ := h.compute
  rw [value_of_root hc, value_of_root ha, value_of_root hb]
  exact hcompute _ _ _

theorem truth_eq_ok {v : Value} {t : Option Bool} (h : truth v = .ok t) :
    (v = .null ∧ t = none) ∨ ∃ k, v = .boolean k ∧ t = some k := by
  cases v <;> simp [truth, undefined] at h
  · exact .inl ⟨rfl, h.symm⟩
  · exact .inr ⟨_, rfl, h.symm⟩

/-- Where a conjunction has a truth, its first part has one, and its second part where the first one
holds. -/
theorem IsConjunction.holds_eq_ok (h : IsConjunction c a b) (hk : c.holds rows = .ok k) :
    ∃ i, a.holds rows = .ok i ∧ (i = true → b.holds rows = .ok k) ∧ (i = false → k = false) := by
  unfold holds at hk ⊢
  rw [h.value] at hk
  obtain ⟨v, hv, hk⟩ := Pass.except_bind_eq_ok.mp hk
  unfold connective at hv
  obtain ⟨va, hva, hv⟩ := Pass.except_bind_eq_ok.mp hv
  obtain ⟨ta, hta, hv⟩ := Pass.except_bind_eq_ok.mp hv
  rw [hva]
  rcases truth_eq_ok hta with ⟨rfl, rfl⟩ | ⟨i, rfl, rfl⟩
  · refine ⟨false, rfl, by simp, fun _ => ?_⟩
    simp only [reduceCtorEq, if_false] at hv
    obtain ⟨vb, hvb, hv⟩ := Pass.except_bind_eq_ok.mp hv
    obtain ⟨tb, htb, hv⟩ := Pass.except_bind_eq_ok.mp hv
    split at hv <;> obtain rfl := Except.ok.inj hv <;> simpa [pure, Except.pure] using hk.symm
  · refine ⟨i, rfl, fun hi => ?_, fun hi => ?_⟩
    · subst hi
      simp only [Option.some.injEq, Bool.true_eq_false, if_false] at hv
      obtain ⟨vb, hvb, hv⟩ := Pass.except_bind_eq_ok.mp hv
      obtain ⟨tb, htb, hv⟩ := Pass.except_bind_eq_ok.mp hv
      rw [hvb]
      rcases truth_eq_ok htb with ⟨rfl, rfl⟩ | ⟨j, rfl, rfl⟩
      · obtain rfl := Except.ok.inj hv
        exact hk
      · cases j <;> obtain rfl := Except.ok.inj hv <;> exact hk
    · subst hi
      obtain rfl := Except.ok.inj hv
      simpa [pure, Except.pure] using hk.symm

/-- A conjunction holds where both of its parts do. -/
theorem IsConjunction.holds_iff (h : IsConjunction c a b) :
    c.holds rows = .ok true ↔ a.holds rows = .ok true ∧ b.holds rows = .ok true := by
  constructor
  · intro hc
    obtain ⟨i, ha, htrue, hfalse⟩ := h.holds_eq_ok hc
    cases i
    · exact absurd (hfalse rfl) (by simp)
    · exact ⟨ha, htrue rfl⟩
  · rintro ⟨ha, hb⟩
    have hvalue : ∀ g : Formula, g.holds rows = .ok true → g.value rows = .ok (.boolean true) := by
      intro g hg
      unfold holds at hg
      obtain ⟨v, hv, hg⟩ := Pass.except_bind_eq_ok.mp hg
      cases v <;> simp [pure, Except.pure] at hg
      rw [hv, hg]
    unfold holds
    rw [h.value, hvalue a ha, hvalue b hb]
    rfl

/-! ## Columns -/

theorem asColumn?_eq_some {input i : Nat} (h : f.asColumn? = some (input, i)) :
    f.graph.size = 1 ∧ ∃ root name, f.root = .ok root ∧
      f.graph.content? root = some (.column input i name) := by
  unfold asColumn? at h
  split at h
  · simp at h
  · rename_i hsize
    refine ⟨by simpa using hsize, ?_⟩
    cases hr : f.root with
    | error e => simp [rootTerm, hr, bind, Except.bind] at h
    | ok root =>
      cases hc : f.graph.content? root with
      | none => simp [rootTerm, hr, content, hc, orError, bind, Except.bind] at h
      | some t =>
        cases t <;> simp [rootTerm, hr, content, hc, orError, bind, Except.bind, columnOf?] at h
        obtain ⟨rfl, rfl⟩ := h
        exact ⟨root, _, rfl, hc⟩

/-- The value of a plain column is its cell. -/
theorem value_of_asColumn? {input i : Nat} (h : f.asColumn? = some (input, i)) :
    f.value rows = .ok (cell rows input i) := by
  obtain ⟨hsize, root, name, hroot, hc⟩ := asColumn?_eq_some h
  rw [value_of_root hroot]
  unfold valueAt compute unfold
  rw [hsize, fold_unfoldTo_succ hc]
  rfl

/-! ## Moved columns -/

/-- A formula is another one with its columns at other places. -/
structure IsMoved (f f' : Formula) (place : Nat → Nat → Result Nat) : Prop where
  sound : f'.Sound
  ids : f'.graph.ids = f.graph.ids
  successors : ∀ id, f'.graph.successors id = f.graph.successors id
  predecessors : ∀ id, f'.graph.predecessors id = f.graph.predecessors id
  column : ∀ id input i name, f.graph.content? id = some (.column input i name) →
    ∃ j, place input i = .ok j ∧ f'.graph.content? id = some (.column input j name)
  other : ∀ id t, f.graph.content? id = some t → columnOf? t = none → f'.graph.content? id = some t
  missing : ∀ id, f.graph.content? id = none → f'.graph.content? id = none

variable {place : Nat → Nat → Result Nat}

/-- A term with its column at another place; none if there is no such place. -/
def movedTerm (place : Nat → Nat → Result Nat) : Term → Option Term
  | .column input i name => (place input i).toOption.map fun j => .column input j name
  | t => some t

theorem movedTerm_of_not_column {t : Term} (h : columnOf? t = none) :
    movedTerm place t = some t := by
  cases t <;> first | rfl | simp [columnOf?] at h

/-- What moving the columns at some of the nodes does, and when it succeeds. -/
theorem remapAt_spec : ∀ {ids : List NodeId} {f : Formula}, ids.Nodup → f.Sound →
    (∀ id ∈ ids, f.graph.contains id = true) →
    (∀ id ∈ ids, ∀ input i name, f.graph.content? id = some (.column input i name) →
      ∃ j, place input i = .ok j) →
    ∃ f', remapAt place ids f = .ok () f' ∧ f'.Sound ∧ f'.graph.ids = f.graph.ids ∧
      (∀ id, f'.graph.successors id = f.graph.successors id) ∧
      (∀ id, f'.graph.predecessors id = f.graph.predecessors id) ∧
      ∀ id, f'.graph.content? id =
        if id ∈ ids then f.graph.content? id >>= movedTerm place else f.graph.content? id
  | [], f, _, h, _, _ => ⟨f, rfl, h, rfl, fun _ => rfl, fun _ => rfl, fun id => by simp⟩
  | id :: ids, f, hn, h, hids, hplace => by
    obtain ⟨hid, hn⟩ := List.nodup_cons.mp hn
    obtain ⟨t, ht⟩ := exists_content? (hids id (by simp))
    have hstep : ∃ f₁ : Formula, remapAt place (id :: ids) f = remapAt place ids f₁ ∧ f₁.Sound ∧
        f₁.graph.ids = f.graph.ids ∧
        (∀ x, f₁.graph.successors x = f.graph.successors x) ∧
        (∀ x, f₁.graph.predecessors x = f.graph.predecessors x) ∧
        ∀ x, f₁.graph.content? x = if x = id then movedTerm place t else f.graph.content? x := by
      cases hcol : columnOf? t with
      | some p =>
        cases t <;> simp [columnOf?] at hcol
        rename_i input i name
        obtain ⟨j, hj⟩ := hplace id (by simp) input i name ht
        refine ⟨{ graph := f.graph.update id fun _ => .column input j name }, ?_,
          { wellFormed := h.wellFormed.update (a := id) (f := fun _ => .column input j name)
            keysBelow := h.keysBelow }, rfl, fun _ => successors_update,
          fun _ => predecessors_update, fun x => ?_⟩
        · conv_lhs => unfold remapAt
          rw [Pass.bind_of_ok Pass.get_apply]
          simp only [ht, hj]
          rw [Pass.bind_of_ok Pass.set_apply]
        · rw [content?_update]
          by_cases hx : x = id
          · subst hx; simp [ht, hj, Except.toOption, movedTerm]
          · simp [hx]
      | none =>
        refine ⟨f, ?_, h, rfl, fun _ => rfl, fun _ => rfl, fun x => ?_⟩
        · conv_lhs => unfold remapAt
          rw [Pass.bind_of_ok Pass.get_apply]
          cases t <;> first | simp [columnOf?] at hcol; done | simp only [ht]
        · by_cases hx : x = id
          · subst hx; simp [ht, movedTerm_of_not_column hcol]
          · simp [hx]
    obtain ⟨f₁, hrun₁, h₁, hids₁, hsuc₁, hpre₁, hcont₁⟩ := hstep
    have hother : ∀ x ∈ ids, f₁.graph.content? x = f.graph.content? x := fun x hx => by
      rw [hcont₁, if_neg fun heq : x = id => hid (heq ▸ hx)]
    obtain ⟨f', hrun, h', hids', hsuc, hpre, hcont⟩ := remapAt_spec (f := f₁) hn h₁
      (fun x hx => by
        rw [← content?_isSome, hother x hx, content?_isSome]; exact hids x (by simp [hx]))
      (fun x hx input i name hcx => hplace x (by simp [hx]) input i name
        (by rw [← hother x hx, hcx]))
    refine ⟨f', hrun₁.trans hrun, h', hids'.trans hids₁, fun x => (hsuc x).trans (hsuc₁ x),
      fun x => (hpre x).trans (hpre₁ x), fun x => ?_⟩
    rw [hcont, hcont₁]
    by_cases hx : x = id
    · subst hx; simp [hid, ht]
    · simp [hx]

theorem remapColumns_spec (place : Nat → Nat → Result Nat) (h : f.Sound)
    (hplace : ∀ p ∈ f.columns, ∃ j, place p.1 p.2 = .ok j) :
    ∃ f', remapColumns place f = .ok () f' ∧ IsMoved f f' place := by
  obtain ⟨f', hrun, h', hids, hsuc, hpre, hcont⟩ := remapAt_spec
    h.wellFormed.ids_nodup h (fun id hid => h.wellFormed.contains_of_mem hid)
    fun id _ input i name hc => hplace (input, i) ((mem_columns h).mpr ⟨id, name, hc⟩)
  refine ⟨f', ?_, h', hids, hsuc, hpre, fun id input i name hc => ?_, fun id t ht hcol => ?_,
    fun id hid => ?_⟩
  · unfold remapColumns
    rw [Pass.bind_of_ok Pass.get_apply]
    exact hrun
  · obtain ⟨j, hj⟩ := hplace (input, i) ((mem_columns h).mpr ⟨id, name, hc⟩)
    have hmem := (h.wellFormed.mem_ids id).mpr (contains_of_content? hc)
    refine ⟨j, hj, ?_⟩
    rw [hcont, if_pos hmem, hc]
    simp [movedTerm, show place input i = .ok j from hj, Except.toOption]
  · rw [hcont, ht]
    simp [movedTerm_of_not_column hcol]
  · rw [hcont, hid]
    simp

namespace IsMoved

theorem root_eq (h : IsMoved f f' place) : f'.root = f.root := by
  unfold Formula.root sources
  simp only [h.ids, h.predecessors]

theorem content (h : IsMoved f f' place) {t : Term} (ht : f'.graph.content? x = some t) :
    ∃ t', f.graph.content? x = some t' ∧ t.arity = t'.arity := by
  cases hc : f.graph.content? x with
  | none => rw [h.missing x hc] at ht; simp at ht
  | some t' =>
    cases hcol : columnOf? t' with
    | none =>
      rw [h.other x t' hc hcol] at ht
      exact ⟨t', rfl, by rw [Option.some.inj ht]⟩
    | some p =>
      cases t' <;> simp [columnOf?] at hcol
      obtain ⟨j, -, hj⟩ := h.column x _ _ _ hc
      rw [hj] at ht
      obtain rfl := Option.some.inj ht
      exact ⟨_, rfl, rfl⟩

theorem valid (h : IsMoved f f' place) (hv : f.Valid) : f'.Valid where
  rooted := h.root_eq ▸ hv.rooted
  acyclic := by
    obtain ⟨rank, hrank⟩ := hv.acyclic
    exact ⟨rank, fun a b hb => hrank a b (h.successors a ▸ hb)⟩
  arity id t ht := by
    obtain ⟨t', ht', harity⟩ := h.content ht
    rw [h.successors, harity]
    exact hv.arity id t' ht'

/-- The columns of a moved formula are the places of those of the original. -/
theorem mem_columns (h : IsMoved f f' place) (hf : f.Sound) {input j : Nat}
    (hp : (input, j) ∈ f'.columns) : ∃ i, (input, i) ∈ f.columns ∧ place input i = .ok j := by
  obtain ⟨id, name, hc⟩ := (Formula.mem_columns h.sound).mp hp
  cases hc' : f.graph.content? id with
  | none => rw [h.missing id hc'] at hc; simp at hc
  | some t =>
    cases hcol : columnOf? t with
    | none =>
      rw [h.other id t hc' hcol] at hc
      rw [Option.some.inj hc] at hcol
      simp [columnOf?] at hcol
    | some p =>
      cases t <;> simp [columnOf?] at hcol
      obtain ⟨j', hj', hc''⟩ := h.column id _ _ _ hc'
      rw [hc''] at hc
      obtain ⟨rfl, rfl, rfl⟩ := Term.column.inj (Option.some.inj hc)
      exact ⟨_, (Formula.mem_columns hf).mpr ⟨id, _, hc'⟩, hj'⟩

/-- Only columns look at the rows. -/
theorem valueNode_of_not_column {id : NodeId} {t : Term} {operands : List (RunResult Value)}
    (h : columnOf? t = none) : valueNode rows id t operands = valueNode rows' id t operands := by
  cases t with
  | const v => rfl
  | column input i name => simp [columnOf?] at h
  | unary op => cases op <;> rfl
  | binary op => cases op <;> rfl

/-- On rows with the same cells at the moved places a moved formula has the same value. -/
theorem value (h : IsMoved f f' place) (hf : f.Sound) (hv : f.Valid)
    (hcell : ∀ input i j, (input, i) ∈ f.columns → place input i = .ok j →
      cell rows' input j = cell rows input i) : f'.value rows' = f.value rows := by
  obtain ⟨root, hroot⟩ := hv.rooted
  rw [value_of_root hroot, value_of_root (h.root_eq.trans hroot)]
  refine compute_unique (R := fun x => f'.graph.contains x = true) _ h.sound.wellFormed
    (h.valid hv).acyclic (fun x hx => ⟨hx, fun y hy => h.sound.wellFormed.target hy⟩)
    (fun x t hx ht => ?_)
    (Valid.contains_root (h.root_eq.trans hroot) h.sound)
  rw [h.successors]
  cases hc : f.graph.content? x with
  | none => rw [h.missing x hc] at ht; simp at ht
  | some t' =>
    unfold valueAt
    rw [compute_eq hf.wellFormed hv.acyclic hc]
    cases hcol : columnOf? t' with
    | none =>
      rw [h.other x t' hc hcol] at ht
      obtain rfl := Option.some.inj ht
      exact valueNode_of_not_column hcol
    | some p =>
      cases t' <;> simp [columnOf?] at hcol
      obtain ⟨j, hj, hj'⟩ := h.column x _ _ _ hc
      rw [hj'] at ht
      obtain rfl := Option.some.inj ht
      exact congrArg Except.ok (hcell _ _ j ((Formula.mem_columns hf).mpr ⟨x, _, hc⟩) hj).symm

end IsMoved

/-! ## Weight -/

/-- The number of terms below a node, each counted as often as it is used. -/
def weightAt (f : Formula) (id : NodeId) : Nat :=
  f.compute (fun _ _ (weights : List Nat) => 1 + weights.sum) (fun _ => 1) id

/-- The number of terms of a formula, each counted as often as it is used. -/
def weight (f : Formula) : Nat :=
  match f.root with
  | .ok root => f.weightAt root
  | .error _ => 0

theorem weight_of_root (h : f.root = .ok root) : f.weight = f.weightAt root := by
  simp only [weight, h]

theorem IsConjunction.weight (h : IsConjunction c a b) :
    c.weight = 1 + (a.weight + b.weight) := by
  obtain ⟨root, rootA, rootB, hc, ha, hb, hcompute⟩ := h.compute
  rw [weight_of_root hc, weight_of_root ha, weight_of_root hb]
  refine (hcompute _ (fun _ (weights : List Nat) => 1 + weights.sum) _).trans ?_
  simp [weightAt]

theorem IsMoved.weight (h : IsMoved f f' place) (hf : f.Sound) (hv : f.Valid) :
    f'.weight = f.weight := by
  obtain ⟨root, hroot⟩ := hv.rooted
  rw [weight_of_root hroot, weight_of_root (h.root_eq.trans hroot)]
  refine compute_unique (R := fun x => f'.graph.contains x = true) _ h.sound.wellFormed
    (h.valid hv).acyclic (fun x hx => ⟨hx, fun y hy => h.sound.wellFormed.target hy⟩)
    (fun x t hx ht => ?_)
    (Valid.contains_root (h.root_eq.trans hroot) h.sound)
  obtain ⟨t', ht', -⟩ := h.content ht
  rw [h.successors]
  exact compute_eq hf.wellFormed hv.acyclic ht'

/-- The keys of the terms below a node, each listed as often as it is used. -/
def keysAt (f : Formula) (id : NodeId) : List NodeId :=
  f.compute (fun id _ (keys : List (List NodeId)) => id :: keys.flatten) (fun _ => []) id

theorem keysAt_eq (hf : f.Sound) (hv : f.Valid) (hx : f.graph.contains x = true) :
    f.keysAt x = x :: (f.graph.successors x).flatMap f.keysAt := by
  obtain ⟨t, ht⟩ := exists_content? hx
  exact compute_eq hf.wellFormed hv.acyclic ht

theorem length_keysAt (hf : f.Sound) (hv : f.Valid) (hx : f.graph.contains x = true) :
    (f.keysAt x).length = f.weightAt x := by
  refine (compute_unique (R := fun x => f.graph.contains x = true) (fun x => (f.keysAt x).length)
    hf.wellFormed hv.acyclic (fun y hy => ⟨hy, fun z hz => hf.wellFormed.target hz⟩)
    (fun y t hy _ => ?_) hx).symm
  rw [keysAt_eq hf hv hy, List.length_cons, List.length_flatMap, Nat.add_comm]

theorem keysAt_closed (hf : f.Sound) (hv : f.Valid) {y z : NodeId} :
    f.graph.contains z = true → x ∈ f.keysAt z → y ∈ f.graph.successors x → y ∈ f.keysAt z := by
  obtain ⟨rank, hrank, hbound⟩ := hv.acyclic.bounded hf.wellFormed
  intro hz hx hy
  induction hn : f.graph.size - rank z using Nat.strongRecOn generalizing z with
  | _ n ih =>
    rw [keysAt_eq hf hv hz, List.mem_cons, List.mem_flatMap] at hx ⊢
    rcases hx with rfl | ⟨w, hw, hxw⟩
    · have hyc := hf.wellFormed.target hy
      exact .inr ⟨y, hy, by rw [keysAt_eq hf hv hyc]; simp⟩
    · have := hrank z w hw
      have := hbound w (hf.wellFormed.target hw)
      exact .inr ⟨w, hw, ih _ (by omega) (hf.wellFormed.target hw) hxw rfl⟩

/-- Copying a formula takes at most as many keys as it weighs. -/
theorem length_descendants_le_weight (hf : f.Sound) (hv : f.Valid) (hroot : f.root = .ok root) :
    (f.graph.descendants root).length ≤ f.weight := by
  have hc := Valid.contains_root hroot hf
  rw [weight_of_root hroot, ← length_keysAt hf hv hc]
  refine (List.subperm_of_subset descendants_nodup
    (descendants_subset (R := (· ∈ f.keysAt root)) ?_ fun x hx y hy => ?_)).length_le
  · rw [keysAt_eq hf hv hc]; simp
  · exact keysAt_closed hf hv hc hx hy

/-- So does the weight. -/
theorem conjoinable_of_weight (ha : a.Sound) (hva : a.Valid) (hb : b.Sound) (hvb : b.Valid)
    (hroom : 1 + a.weight + b.weight < 2 ^ 64) : Conjoinable a b := by
  intro rootA rootB hrootA hrootB
  have := length_descendants_le_weight ha hva hrootA
  have := length_descendants_le_weight hb hvb hrootB
  omega

end Formula

/-!
## What a formula sees of the columns it uses

The listed uses of columns are all that the value of a formula depends on: two rows on which every
use reads the same give the same value (`value_of_uses`). A column that is only an operand of
lookups is not seen as a whole, but only under the keys that are looked up. A conjunction reads the
columns that its parts read (`IsConjunction.mem_columns`).
-/

open Dataflow.Graph

namespace Formula

variable {f : Formula} {rows rows' : Rows} {x y : NodeId}

/-- What a use reads is the same on both rows. -/
def SeesSame (rows rows' : Rows) : ColumnUse → Prop
  | .whole input i => cell rows input i = cell rows' input i
  | .key input i key =>
    lookupValue key (cell rows input i) = lookupValue key (cell rows' input i)

theorem mem_columnUses (hf : f.Sound) {input i : Nat} {name : Option String}
    (hy : f.graph.content? y = some (.column input i name)) :
    (f.graph.predecessors y = [] → .whole input i ∈ f.columnUses) ∧
      ∀ x ∈ f.graph.predecessors y, f.useBy input i x ∈ f.columnUses := by
  have hmem : (y, Term.column input i name) ∈ f.graph.toList :=
    (hf.wellFormed.mem_toList_iff).mpr hy
  unfold columnUses
  refine ⟨fun hnone => List.mem_flatMap.mpr ⟨_, hmem, ?_⟩, fun x hx =>
    List.mem_flatMap.mpr ⟨_, hmem, ?_⟩⟩
  · simp [columnOf?, hnone]
  · obtain ⟨z, zs, hzs⟩ := List.exists_cons_of_ne_nil (List.ne_nil_of_mem hx)
    simp only [columnOf?, hzs]
    exact List.mem_map_of_mem (hzs ▸ hx)

/-- The equation of a node. -/
theorem valueAt_eq (hf : f.Sound) (hv : f.Valid) {t : Term} (ht : f.graph.content? x = some t) :
    f.valueAt rows x = valueNode rows default t ((f.graph.successors x).map (f.valueAt rows)) :=
  compute_eq hf.wellFormed hv.acyclic ht

/-- The value of a node on the second row, but of a column its cell on the first one. -/
def mixedAt (f : Formula) (rows rows' : Rows) (x : NodeId) : RunResult Value :=
  if (f.graph.content? x).any fun t => (columnOf? t).isSome then f.valueAt rows x
  else f.valueAt rows' x

theorem mixedAt_of_column (rows rows' : Rows) {t : Term} (ht : f.graph.content? x = some t)
    (hcol : (columnOf? t).isSome = true) : f.mixedAt rows rows' x = f.valueAt rows x :=
  if_pos (by simp [ht, hcol])

theorem mixedAt_of_not_column {t : Term} (ht : f.graph.content? x = some t)
    (hcol : columnOf? t = none) : f.mixedAt rows rows' x = f.valueAt rows' x :=
  if_neg (by simp [ht, hcol])

/-- Only at a column the two may differ, and the column is then used by the node above it. -/
theorem mixedAt_operand (rows rows' : Rows) (hf : f.Sound) (hv : f.Valid)
    (hy : y ∈ f.graph.successors x) :
    f.mixedAt rows rows' y = f.valueAt rows' y ∨
      ∃ input i, f.mixedAt rows rows' y = .ok (cell rows input i) ∧
        f.valueAt rows' y = .ok (cell rows' input i) ∧ f.useBy input i x ∈ f.columnUses := by
  obtain ⟨t, ht⟩ := Option.isSome_iff_exists.mp (content?_isSome.trans (hf.wellFormed.target hy))
  cases hcol : columnOf? t with
  | none => exact .inl (mixedAt_of_not_column ht hcol)
  | some p =>
    have hmixed := mixedAt_of_column rows rows' ht (by simp [hcol])
    cases t <;> simp [columnOf?] at hcol
    refine .inr ⟨_, _, hmixed.trans (valueAt_eq hf hv ht), valueAt_eq hf hv ht, ?_⟩
    exact (mem_columnUses hf ht).2 x ((hf.wellFormed.edge x y).mp hy)

/-- Where every use of a column sees the same, a node makes the same of both. -/
theorem mixedAt_eq (hf : f.Sound) (hv : f.Valid)
    (huses : ∀ use ∈ f.columnUses, SeesSame rows rows' use) {t : Term}
    (ht : f.graph.content? x = some t) : f.mixedAt rows rows' x =
      valueNode rows default t ((f.graph.successors x).map (f.mixedAt rows rows')) := by
  cases hcol : columnOf? t with
  | some p =>
    rw [mixedAt_of_column rows rows' ht (by simp [hcol]), valueAt_eq hf hv ht]
    cases t <;> simp [columnOf?] at hcol
    rfl
  | none =>
    have hnode : ∀ operands, valueNode rows' default t operands =
        valueNode rows default t operands := fun _ => IsMoved.valueNode_of_not_column hcol
    rw [mixedAt_of_not_column ht hcol, valueAt_eq hf hv ht, hnode]
    by_cases hlookup : ∃ key, t = .unary (.lookup key)
    · -- a lookup sees its operand under the key
      obtain ⟨key, rfl⟩ := hlookup
      obtain ⟨y, hy⟩ := List.length_eq_one_iff.mp (hv.arity x _ ht)
      rw [hy]
      change (f.valueAt rows' y >>= lookupValue key) =
        f.mixedAt rows rows' y >>= lookupValue key
      rcases mixedAt_operand rows rows' hf hv (show y ∈ f.graph.successors x by simp [hy]) with
        h | ⟨input, i, h, h', huse⟩
      · rw [h]
      · have hsees := huses _ huse
        rw [useBy, ht] at hsees
        rw [h, h']
        exact hsees.symm
    · -- any other node sees its operands as a whole
      congr 1
      refine List.map_congr_left fun y hy => ?_
      rcases mixedAt_operand rows rows' hf hv hy with h | ⟨input, i, h, h', huse⟩
      · exact h.symm
      · have hwhole : f.useBy input i x = .whole input i := by
          unfold useBy
          rw [ht]
          split
          · rename_i key heq
            exact absurd ⟨key, Option.some.inj heq⟩ hlookup
          · rfl
        have hsees := huses _ huse
        rw [hwhole] at hsees
        rw [h, h']
        exact congrArg Except.ok hsees.symm

/-- The value of a formula depends on nothing but the uses of its columns. -/
theorem value_of_uses (hf : f.Sound) (hv : f.Valid)
    (huses : ∀ use ∈ f.columnUses, SeesSame rows rows' use) : f.value rows = f.value rows' := by
  obtain ⟨root, hroot⟩ := hv.rooted
  have hcroot := Valid.contains_root hroot hf
  obtain ⟨t, ht⟩ := Option.isSome_iff_exists.mp (content?_isSome.trans hcroot)
  have hmixed : f.valueAt rows root = f.mixedAt rows rows' root :=
    compute_unique (R := fun x => f.graph.contains x = true) _ hf.wellFormed hv.acyclic
      (fun y hy => ⟨hy, fun z hz => hf.wellFormed.target hz⟩)
      (fun y t _ ht => mixedAt_eq hf hv huses ht) hcroot
  rw [value_of_root hroot, value_of_root hroot]
  cases hcol : columnOf? t with
  | none => rw [hmixed, mixedAt_of_not_column ht hcol]
  | some p =>
    -- a formula that is a plain column is read as a whole
    rw [valueAt_eq hf hv ht, valueAt_eq hf hv ht]
    cases t <;> simp [columnOf?] at hcol
    have hsees := huses _ ((mem_columnUses hf ht).1 (Valid.predecessors_root hroot))
    exact congrArg Except.ok hsees

/-! ### The columns of a conjunction -/

variable {a b c : Formula} {root : NodeId} {col : Nat × Nat}

/-- Every node lies below the root. -/
theorem mem_keysAt_root (hf : f.Sound) (hv : f.Valid) (hroot : f.root = .ok root) :
    ∀ {x : NodeId}, f.graph.contains x = true → x ∈ f.keysAt root := by
  have hcroot := Valid.contains_root hroot hf
  intro x hx
  refine hv.acyclic.from_source hf.wellFormed (root_eq_ok.mp hroot) ?_ ?_ x hx
  · rw [keysAt_eq hf hv hcroot]
    exact List.mem_cons_self
  · intro y _ hy z hz
    exact keysAt_closed hf hv hcroot hy hz

/-- The columns below a node, each listed as often as it is used. -/
def columnsAt (f : Formula) (id : NodeId) : List (Nat × Nat) :=
  f.compute (fun _ t (columns : List (List (Nat × Nat))) => (columnOf? t).toList ++ columns.flatten)
    (fun _ => []) id

theorem columnsAt_eq (hf : f.Sound) (hv : f.Valid) (hx : f.graph.contains x = true) :
    f.columnsAt x = (f.keysAt x).filterMap fun y => (f.graph.content? y).bind columnOf? := by
  refine compute_unique (R := fun x => f.graph.contains x = true)
    (fun x => (f.keysAt x).filterMap fun y => (f.graph.content? y).bind columnOf?)
    hf.wellFormed hv.acyclic (fun y hy => ⟨hy, fun z hz => hf.wellFormed.target hz⟩)
    (fun y t hy ht => ?_) hx
  rw [keysAt_eq hf hv hy, List.filterMap_cons, ht, Option.bind_some, List.filterMap_flatMap,
    List.flatten_eq_flatMap, List.flatMap_map]
  cases columnOf? t <;> rfl

theorem mem_columnsAt_root (hf : f.Sound) (hv : f.Valid) (hroot : f.root = .ok root) :
    col ∈ f.columnsAt root ↔ col ∈ f.columns := by
  obtain ⟨input, i⟩ := col
  rw [columnsAt_eq hf hv (Valid.contains_root hroot hf), List.mem_filterMap, mem_columns hf]
  constructor
  · rintro ⟨y, -, hy⟩
    obtain ⟨t, ht, hcol⟩ := Option.bind_eq_some_iff.mp hy
    cases t <;> simp [columnOf?] at hcol
    obtain ⟨rfl, rfl⟩ := hcol
    exact ⟨y, _, ht⟩
  · rintro ⟨y, name, hy⟩
    exact ⟨y, mem_keysAt_root hf hv hroot (contains_of_content? hy), by rw [hy]; rfl⟩

/-- A conjunction reads the columns that its parts read, and no others. -/
theorem IsConjunction.mem_columns (h : IsConjunction c a b) (hc : c.Sound ∧ c.Valid)
    (ha : a.Sound ∧ a.Valid) (hb : b.Sound ∧ b.Valid) :
    col ∈ c.columns ↔ col ∈ a.columns ∨ col ∈ b.columns := by
  obtain ⟨root, rootA, rootB, hroot, hrootA, hrootB, hcompute⟩ := h.compute
  have hparts : c.columnsAt root = a.columnsAt rootA ++ b.columnsAt rootB := by
    refine (hcompute _ (fun t (columns : List (List (Nat × Nat))) =>
      (columnOf? t).toList ++ columns.flatten) _).trans ?_
    show [] ++ (a.columnsAt rootA ++ (b.columnsAt rootB ++ [])) = _
    rw [List.nil_append, List.append_nil]
  rw [← mem_columnsAt_root hc.1 hc.2 hroot, hparts, List.mem_append,
    mem_columnsAt_root ha.1 ha.2 hrootA, mem_columnsAt_root hb.1 hb.2 hrootB]

end Formula

end Dataflow

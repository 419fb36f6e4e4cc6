import Dataflow.Proofs.Plan.Columns
import Dataflow.Proofs.Plan.Ledger

/-!
# Where columns come from

A column says from which columns it was computed. Deriving a schema takes such columns from the
inputs, or hands on what the inputs say (`Operator.from_deriveSchema`). So along the flow of rows
every column that is named as a parent is found at an operator that feeds the one that names it
(`Plan.lineage`).
-/

namespace Dataflow

open Dataflow.Expr (Inputs)

variable {s t : Schema} {u : Uid} {f : Field} {inputs : Inputs} {operator : String}

/-! ## Fields -/

theorem Field.allParents_eq (f : Field) :
    f.allParents = f.parents ++ Schema.nestedParents f.nested := by
  cases f
  rfl

theorem Field.uid_mem_allUids (f : Field) : f.uid ∈ f.allUids := by
  cases f
  simp [Field.allUids]

theorem Schema.mem_allParents : ∀ {s : Schema}, u ∈ allParents s ↔ ∃ f ∈ s, u ∈ f.allParents
  | [] => by simp [allParents]
  | f :: s => by simp [allParents, mem_allParents (s := s)]

theorem Schema.mem_allUids : ∀ {s : Schema}, u ∈ allUids s ↔ ∃ f ∈ s, u ∈ f.allUids
  | [] => by simp [allUids]
  | f :: s => by simp [allUids, mem_allUids (s := s)]

theorem Schema.uid_mem_allUids (hf : f ∈ s) : f.uid ∈ allUids s :=
  mem_allUids.mpr ⟨f, hf, f.uid_mem_allUids⟩

mutual

/-- What was merged says nothing of where it came from. -/
theorem Field.allParents_merge? : ∀ {a b f : Field}, a.merge? b = some f → f.allParents = []
  | ⟨_, _, inner, _, _⟩, b, f, h => by
    unfold Field.merge? at h
    obtain ⟨type, -, h⟩ := Option.bind_eq_some_iff.mp h
    obtain ⟨nested, hnested, h⟩ := Option.bind_eq_some_iff.mp h
    obtain rfl := Option.some.inj h
    exact Schema.nestedParents_nestedMerge? hnested

theorem Schema.nestedParents_nestedMerge? : ∀ {a b inner : Option (List Field)},
    Schema.nestedMerge? a b = some inner → Schema.nestedParents inner = []
  | some a, some b, inner, h => by
    unfold Schema.nestedMerge? at h
    obtain ⟨m, hm, rfl⟩ := Option.map_eq_some_iff.mp h
    exact Schema.allParents_merge? hm
  | none, _, inner, h => by
    obtain rfl : none = inner := by simpa [Schema.nestedMerge?] using h
    rfl
  | some _, none, inner, h => by
    obtain rfl : none = inner := by simpa [Schema.nestedMerge?] using h
    rfl

theorem Schema.allParents_merge? : ∀ {a b m : List Field}, Schema.merge? a b = some m →
    Schema.allParents m = []
  | [], [], m, h => by
    obtain rfl : [] = m := by simpa [Schema.merge?] using h
    rfl
  | a :: as, b :: bs, m, h => by
    unfold Schema.merge? at h
    obtain ⟨f, hf, h⟩ := Option.bind_eq_some_iff.mp h
    obtain ⟨rest, hrest, h⟩ := Option.bind_eq_some_iff.mp h
    obtain rfl := Option.some.inj h
    rw [Schema.allParents, Field.allParents_merge? hf, Schema.allParents_merge? hrest]
    rfl
  | [], _ :: _, _, h => by simp [Schema.merge?] at h
  | _ :: _, [], _, h => by simp [Schema.merge?] at h

end

namespace Operator

/-! ## Derived schemas -/

/-- The identity is that of a column of an input, or an input names it as a parent. -/
def From (inputs : Inputs) (u : Uid) : Prop :=
  ∃ t, some t ∈ inputs ∧ (u ∈ Schema.allUids t ∨ u ∈ Schema.allParents t)

theorem mem_of_mem_firsts {α : Type} [BEq α] {x : α} {xs : List α} (h : x ∈ firsts xs) :
    x ∈ xs := by
  have hfold : ∀ (xs kept : List α),
      x ∈ xs.foldl (fun kept x => if kept.contains x then kept else kept ++ [x]) kept →
        x ∈ xs ∨ x ∈ kept := by
    intro xs
    induction xs with
    | nil => exact fun kept h => .inr h
    | cons y xs ih =>
      intro kept h
      rcases ih _ h with h | h
      · exact .inl (List.mem_cons_of_mem y h)
      · dsimp only at h
        split at h
        · exact .inr h
        · rcases List.mem_append.mp h with h | h
          · exact .inr h
          · exact .inl (by simp_all)
  simpa using hfold xs [] h

/-- Merging forgets where columns came from, unless there is nothing to merge with. -/
theorem exists_of_mem_mergeAll? {known : List Schema} (h : mergeAll? known = some s)
    (hu : u ∈ Schema.allParents s) : ∃ t ∈ known, u ∈ Schema.allParents t := by
  match known, h with
  | [first], h =>
    obtain rfl : first = s := by simpa [mergeAll?] using h
    exact ⟨first, by simp, hu⟩
  | first :: second :: rest, h =>
    have hmerged : ∀ {rest : List Schema} {first : Schema}, Schema.allParents first = [] →
        rest.foldlM (fun merged s => Schema.merge? merged s) first = some s →
          Schema.allParents s = [] := by
      intro rest
      induction rest with
      | nil =>
        intro first hfirst h
        obtain rfl : first = s := by simpa using h
        exact hfirst
      | cons t rest ih =>
        intro first _ h
        rw [List.foldlM_cons] at h
        obtain ⟨m, hm, h⟩ := Option.bind_eq_some_iff.mp h
        exact ih (Schema.allParents_merge? hm) h
    obtain ⟨m, hm, h⟩ := Option.bind_eq_some_iff.mp h
    rw [hmerged (Schema.allParents_merge? hm) h] at hu
    simp at hu

theorem from_unionSchema {chosen uids : List Uid} {supply supply' : UidSupply}
    (h : unionSchema chosen inputs supply = (some s, uids, supply'))
    (hu : u ∈ Schema.allParents s) :
    From inputs u := by
  unfold unionSchema at h
  split at h
  · simp at h
  rename_i known hknown
  split at h
  · simp at h
  rename_i merged hmerged
  generalize unionUids chosen merged.length supply = fresh at h
  obtain rfl := Option.some.inj (Prod.mk.inj h).1
  rw [allKnown?_eq_some.mp hknown]
  obtain ⟨f, hf, hu⟩ := Schema.mem_allParents.mp hu
  obtain ⟨⟨⟨g, uid⟩, i⟩, hg, rfl⟩ := List.mem_map.mp hf
  rw [Field.allParents_eq] at hu
  rcases List.mem_append.mp hu with hu | hu
  · obtain ⟨t, ht, hcolumn⟩ := List.mem_filterMap.mp (mem_of_mem_firsts hu)
    obtain ⟨column, hplace, rfl⟩ := Option.map_eq_some_iff.mp hcolumn
    exact ⟨t, List.mem_map_of_mem ht, .inl (Schema.uid_mem_allUids (List.mem_of_getElem? hplace))⟩
  · have hmem : g ∈ merged := (List.of_mem_zip (List.fst_mem_of_mem_zipIdx hg)).1
    obtain ⟨t, ht, hu⟩ := exists_of_mem_mergeAll? hmerged
      (Schema.mem_allParents.mpr
        ⟨g, hmem, by rw [Field.allParents_eq]; exact List.mem_append_right _ hu⟩)
    exact ⟨t, List.mem_map_of_mem ht, .inr hu⟩

theorem allParents_qualify {input : String} : ∀ {s fields : List Field} {taken all : List String},
    qualify operator input s taken = .ok (fields, all) →
      Schema.allParents fields = Schema.allParents s
  | [], fields, taken, all, h => by
    obtain ⟨rfl, -⟩ : [] = fields ∧ taken = all := by simpa [qualify] using h
    rfl
  | f :: s, fields, taken, all, h => by
    unfold qualify at h
    split at h
    · obtain ⟨⟨rest, taken'⟩, hrest, h⟩ := Pass.except_bind_eq_ok.mp h
      obtain ⟨rfl, -⟩ : f :: rest = fields ∧ taken' = all := by simpa using h
      exact congrArg (f.allParents ++ ·) (allParents_qualify hrest)
    · dsimp only at h
      split at h
      · simp at h
      · obtain ⟨⟨rest, taken'⟩, hrest, h⟩ := Pass.except_bind_eq_ok.mp h
        obtain ⟨rfl, -⟩ := Prod.mk.inj (Except.ok.inj h)
        rw [Schema.allParents, Schema.allParents, allParents_qualify hrest, Field.allParents_eq,
          Field.allParents_eq]

theorem from_append {fields : Schema} {rest : List (Option Schema)} {others : Option Schema}
    (hfields : Schema.allParents fields = Schema.allParents t)
    (hothers : ∀ {o u}, others = some o → u ∈ Schema.allParents o → From rest u)
    (h : others.map (fields ++ ·) = some s) (hu : u ∈ Schema.allParents s) :
    From (some t :: rest) u := by
  obtain ⟨o, ho, rfl⟩ := Option.map_eq_some_iff.mp h
  obtain ⟨f, hf, hu⟩ := Schema.mem_allParents.mp hu
  rcases List.mem_append.mp hf with hf | hf
  · exact ⟨t, by simp, .inr (hfields ▸ Schema.mem_allParents.mpr ⟨f, hf, hu⟩)⟩
  · obtain ⟨t', ht', hu⟩ := hothers ho (Schema.mem_allParents.mpr ⟨f, hf, hu⟩)
    exact ⟨t', List.mem_cons_of_mem _ ht', hu⟩

theorem from_concatSchema : ∀ {inputs : List (Option Schema × Option String)} {taken : List String}
    {s : Schema} {u : Uid}, concatSchema operator inputs taken = .ok (some s) →
      u ∈ Schema.allParents s → From (inputs.map Prod.fst) u
  | [], taken, s, u, h, hu => by
    obtain rfl : [] = s := by simpa [concatSchema] using h
    simp [Schema.allParents] at hu
  | (none, _) :: inputs, taken, s, u, h, hu => by simp [concatSchema] at h
  | (some t, none) :: inputs, taken, s, u, h, hu => by
    unfold concatSchema at h
    obtain ⟨rest, hrest, h⟩ := Pass.except_bind_eq_ok.mp h
    exact from_append rfl (fun ho hu => from_concatSchema (ho ▸ hrest) hu) (Except.ok.inj h) hu
  | (some t, some input) :: inputs, taken, s, u, h, hu => by
    unfold concatSchema at h
    obtain ⟨⟨fields, taken'⟩, hfields, h⟩ := Pass.except_bind_eq_ok.mp h
    obtain ⟨rest, hrest, h⟩ := Pass.except_bind_eq_ok.mp h
    exact from_append (allParents_qualify hfields) (fun ho hu => from_concatSchema (ho ▸ hrest) hu)
      (Except.ok.inj h) hu

theorem mem_of_schemaOf? (h : Expr.schemaOf? inputs 0 = some s) : some s ∈ inputs := by
  unfold Expr.schemaOf? at h
  exact List.mem_of_getElem? (Option.join_eq_some_iff.mp h)

theorem from_itemFields {item : Item} {fields : List (Field × Bool)}
    (h : itemFields operator inputs item = .ok (some fields)) (hf : f ∈ fields.map Prod.fst)
    (hu : u ∈ f.allParents) : From inputs u := by
  unfold itemFields at h
  cases hcolumn : item.formula.asColumn? with
  | some c =>
    obtain ⟨input, column⟩ := c
    simp only [hcolumn] at h
    split at h
    · simp at h
    rename_i schema hschema
    have hinput := mem_of_schemaOf? hschema
    split at h
    · simp at h
    rename_i field hplace
    have hmem := List.mem_of_getElem? hplace
    split at h
    · -- a flattened column is the parent of what was inside it
      obtain ⟨inner, hinner, rfl⟩ := Option.map_eq_some_iff.mp (Except.ok.inj h)
      simp only [List.map_map, List.mem_map, Function.comp_apply] at hf
      obtain ⟨g, hg, rfl⟩ := hf
      rw [Field.allParents_eq] at hu
      rcases List.mem_append.mp hu with hu | hu
      · obtain rfl := List.mem_singleton.mp hu
        exact ⟨schema, hinput, .inl (Schema.uid_mem_allUids hmem)⟩
      · refine ⟨schema, hinput, .inr (Schema.mem_allParents.mpr ⟨field, hmem, ?_⟩)⟩
        rw [Field.allParents_eq, hinner]
        refine List.mem_append_right _ (Schema.mem_allParents.mpr ⟨g, hg, ?_⟩)
        rw [Field.allParents_eq]
        exact List.mem_append_right _ hu
    · obtain rfl := Option.some.inj (Except.ok.inj h)
      obtain rfl : f = { field with name := item.name.or field.name } := by simpa using hf
      refine ⟨schema, hinput, .inr (Schema.mem_allParents.mpr ⟨field, hmem, ?_⟩)⟩
      rwa [Field.allParents_eq] at hu ⊢
  | none =>
    simp only [hcolumn] at h
    split at h
    · simp at h
    split at h
    · simp at h
    obtain rfl := Option.some.inj (Except.ok.inj h)
    obtain rfl := List.mem_singleton.mp hf
    rw [Field.allParents_eq] at hu
    cases hschema : Expr.schemaOf? inputs 0 with
    | none => simp [hschema, Schema.nestedParents] at hu
    | some schema =>
      simp only [hschema, Schema.nestedParents, List.append_nil] at hu
      obtain ⟨⟨input, i⟩, -, hfield⟩ := List.mem_filterMap.mp (mem_of_mem_firsts hu)
      obtain ⟨field, hplace, rfl⟩ := Option.map_eq_some_iff.mp hfield
      exact ⟨schema, mem_of_schemaOf? hschema,
        .inl (Schema.uid_mem_allUids (List.mem_of_getElem? hplace))⟩

theorem from_allItemFields : ∀ {items : List Item} {fields : List (Field × Bool)},
    allItemFields operator inputs items = .ok (some fields) → f ∈ fields.map Prod.fst →
      u ∈ f.allParents → From inputs u
  | [], fields, h, hf, hu => by
    obtain rfl : [] = fields := by simpa [allItemFields] using h
    simp at hf
  | item :: items, fields, h, hf, hu => by
    unfold allItemFields at h
    obtain ⟨made, hmade, h⟩ := Pass.except_bind_eq_ok.mp h
    cases made with
    | none => simp at h
    | some made =>
      obtain ⟨rest, hrest, h⟩ := Pass.except_bind_eq_ok.mp h
      obtain ⟨others, rfl, rfl⟩ := Option.map_eq_some_iff.mp (Except.ok.inj h)
      rw [List.map_append] at hf
      rcases List.mem_append.mp hf with hf | hf
      · exact from_itemFields hmade hf hu
      · exact from_allItemFields hrest hf hu

theorem from_forEachSchema {items : List Item}
    (h : forEachSchema operator items inputs = .ok (some s)) (hu : u ∈ Schema.allParents s) :
    From inputs u := by
  unfold forEachSchema at h
  obtain ⟨fields, hfields, h⟩ := Pass.except_bind_eq_ok.mp h
  cases fields with
  | none => simp at h
  | some fields =>
    obtain ⟨_, -, h⟩ := Pass.except_bind_eq_ok.mp h
    obtain rfl := Option.some.inj (Except.ok.inj h)
    obtain ⟨f, hf, hu⟩ := Schema.mem_allParents.mp hu
    exact from_allItemFields hfields hf hu

/-- What a derived schema names as a parent is a column of an input, or an input names it as a
parent. -/
theorem from_deriveSchema {op : Operator} {names : List (Option String)}
    {supply supply' : UidSupply}
    {o : Operation} (hsource : op.operation.IsSource) (hlen : names.length = inputs.length)
    (h : op.deriveSchema inputs names supply = .ok (some s, o, supply'))
    (hu : u ∈ Schema.allParents s) : From inputs u := by
  have hconcat (h : concatSchema op.describe (inputs.zip names) [] = .ok (some s)) :
      From inputs u := by
    have hfrom := from_concatSchema h hu
    rwa [List.map_fst_zip (Nat.le_of_eq hlen.symm)] at hfrom
  unfold deriveSchema at h
  cases ho : op.operation with
  | load l =>
    rw [ho] at h hsource
    obtain ⟨hdeclared, -, -⟩ : l.declared = some s ∧ _ ∧ _ := by simpa using h
    rw [hsource s hdeclared] at hu
    simp at hu
  | union chosen =>
    rw [ho] at h
    obtain ⟨hs, -, -⟩ : _ ∧ _ ∧ _ := by simpa using h
    exact from_unionSchema (by rw [← hs]) hu
  | cross =>
    rw [ho] at h
    obtain ⟨t, ht, h⟩ := Pass.except_bind_eq_ok.mp h
    obtain ⟨rfl, -, -⟩ : _ ∧ _ ∧ _ := by simpa using h
    exact hconcat ht
  | join type keys =>
    rw [ho] at h
    obtain ⟨t, ht, h⟩ := Pass.except_bind_eq_ok.mp h
    obtain ⟨rfl, -, -⟩ : _ ∧ _ ∧ _ := by simpa using h
    exact hconcat ht
  | forEach items =>
    rw [ho] at h
    obtain ⟨t, ht, h⟩ := Pass.except_bind_eq_ok.mp h
    obtain ⟨rfl, -, -⟩ : _ ∧ _ ∧ _ := by simpa using h
    exact from_forEachSchema ht hu
  | _ =>
    rw [ho] at h
    obtain ⟨hs, -, -⟩ : Expr.schemaOf? inputs 0 = some s ∧ _ ∧ _ := by simpa using h
    exact ⟨s, mem_of_schemaOf? hs, .inr hu⟩

end Operator

namespace Plan

variable {p : Plan} {id : NodeId}

/-! ## Plans -/

/-- What a derived schema names as a parent is a column of an operator that feeds the one with the
schema. -/
theorem lineage (hp : p.Ready)
    (hsource : ∀ id op, p.operator? id = some op → op.operation.IsSource) :
    ∀ {id : NodeId} {s : Schema} {u : Uid}, p.memoOf id = some (some s) → u ∈ Schema.allParents s →
      ∃ x t, Feeds p id x ∧ p.memoOf x = some (some t) ∧ u ∈ Schema.allUids t := by
  obtain ⟨rank, hrank⟩ := hp.acyclic
  intro id
  induction hn : rank id using Nat.strong_induction_on generalizing id with
  | _ n ih =>
    intro s u hs hu
    obtain ⟨op, hop, hmemo⟩ := Option.bind_eq_some_iff.mp hs
    obtain ⟨hall, hderive⟩ := hp.coherent id op (some s) hop hmemo
    obtain ⟨t, ht, hu⟩ := Operator.from_deriveSchema (hsource id op hop) (by simp)
      (hderive p.uids) hu
    obtain ⟨x, hx, hxt⟩ := List.mem_map.mp ht
    obtain ⟨t', hxt'⟩ := Option.isSome_iff_exists.mp (hall x hx)
    obtain rfl : t' = some t := by simpa [hxt'] using hxt
    have hfeeds : Feeds p id x := .step hx .refl
    rcases hu with hu | hu
    · exact ⟨x, t, hfeeds, hxt', hu⟩
    · have hedge := (hp.wellFormed.edge x id).mpr (mem_predecessors_of_mem_dataInputs hx)
      obtain ⟨y, v, hy, hv, hu⟩ := ih (rank x) (hn ▸ hrank x id hedge) rfl hxt' hu
      exact ⟨y, v, hfeeds.trans hy, hv, hu⟩

end Plan

end Dataflow

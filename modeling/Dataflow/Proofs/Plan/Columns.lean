import Dataflow.Proofs.Plan.Layout

/-!
# Columns of outputs

How the identities of an operator's output columns come from those of its inputs: joins and products
set the columns of all inputs side by side (`sideBySide`), a union has new ones whose parents are
the columns at the same place, and generated columns are one for each item unless one is flattened.
-/

namespace Dataflow

open Dataflow.Expr (Inputs)

/-- The identities of the columns, if these are known. -/
abbrev Columns := Option (List Uid)

namespace Columns

/-- The columns of a schema. -/
def ofSchema (s : Option Schema) : Columns := s.map Schema.uids

/-- The columns of one row beside those of another one. -/
def beside (cols cols' : Columns) : Columns := cols.bind fun us => cols'.map (us ++ ·)

/-- The columns of all inputs side by side. -/
def sideBySide (inputs : List Columns) : Columns := inputs.foldr beside (some [])

theorem beside_assoc (cols cols' cols'' : Columns) :
    beside (beside cols cols') cols'' = beside cols (beside cols' cols'') := by
  cases cols <;> cases cols' <;> cases cols'' <;> simp [beside]

theorem nil_beside (cols : Columns) : beside (some []) cols = cols := by
  cases cols <;> simp [beside]

theorem beside_nil (cols : Columns) : beside cols (some []) = cols := by
  cases cols <;> simp [beside]

end Columns

namespace Operator

variable {operator : String} {inputs : Inputs}

open Columns

/-! ## Joins and products -/

theorem uids_qualify {input : String} : ∀ {s fields : List Field} {taken all : List String},
    qualify operator input s taken = .ok (fields, all) → Schema.uids fields = Schema.uids s
  | [], fields, taken, all, h => by
    obtain ⟨rfl, -⟩ : [] = fields ∧ taken = all := by simpa [qualify] using h
    rfl
  | f :: s, fields, taken, all, h => by
    unfold qualify at h
    split at h
    · obtain ⟨⟨rest, taken'⟩, hrest, h⟩ := Pass.except_bind_eq_ok.mp h
      obtain ⟨rfl, -⟩ : f :: rest = fields ∧ taken' = all := by simpa using h
      exact congrArg (f.uid :: ·) (uids_qualify hrest)
    · dsimp only at h
      split at h
      · simp at h
      · obtain ⟨⟨rest, taken'⟩, hrest, h⟩ := Pass.except_bind_eq_ok.mp h
        obtain ⟨rfl, -⟩ := Prod.mk.inj (Except.ok.inj h)
        exact congrArg (f.uid :: ·) (uids_qualify hrest)

theorem columns_concatSchema : ∀ {inputs : Inputs} {names : List (Option String)}
    {taken : List String} {s : Option Schema}, names.length = inputs.length →
    concatSchema operator (inputs.zip names) taken = .ok s →
    ofSchema s = sideBySide (inputs.map ofSchema)
  | [], names, taken, s, _, h => by
    obtain rfl : some [] = s := by simpa [concatSchema] using h
    rfl
  | none :: inputs, name :: names, taken, s, hlen, h => by
    obtain rfl : none = s := by simpa [concatSchema] using h
    rfl
  | some t :: inputs, none :: names, taken, s, hlen, h => by
    rw [List.zip_cons_cons] at h
    unfold concatSchema at h
    obtain ⟨rest, hrest, h⟩ := Pass.except_bind_eq_ok.mp h
    obtain rfl := Except.ok.inj h
    have ih := columns_concatSchema (by simpa using hlen) hrest
    rw [List.map_cons, sideBySide, List.foldr_cons]
    rw [sideBySide] at ih
    rw [← ih]
    cases rest <;> simp [ofSchema, beside, Schema.uids]
  | some t :: inputs, some input :: names, taken, s, hlen, h => by
    rw [List.zip_cons_cons] at h
    unfold concatSchema at h
    obtain ⟨⟨fields, taken'⟩, hfields, h⟩ := Pass.except_bind_eq_ok.mp h
    obtain ⟨rest, hrest, h⟩ := Pass.except_bind_eq_ok.mp h
    obtain rfl := Except.ok.inj h
    have ih := columns_concatSchema (by simpa using hlen) hrest
    have huids := uids_qualify hfields
    rw [List.map_cons, sideBySide, List.foldr_cons]
    rw [sideBySide] at ih
    rw [← ih]
    unfold Schema.uids at huids
    cases rest <;> simp [ofSchema, beside, Schema.uids, huids]

/-! ## Unions -/

theorem mem_firsts {α : Type} [BEq α] [LawfulBEq α] {x : α} {xs : List α} (h : x ∈ xs) :
    x ∈ firsts xs := by
  have hfold : ∀ (xs kept : List α), (x ∈ xs ∨ x ∈ kept) →
      x ∈ xs.foldl (fun kept x => if kept.contains x then kept else kept ++ [x]) kept := by
    intro xs
    induction xs with
    | nil => intro kept h; simpa using h
    | cons y xs ih =>
      intro kept h
      refine ih _ ?_
      dsimp only
      split
      · rename_i hy
        rcases h with h | h
        · rcases List.mem_cons.mp h with rfl | h
          · exact .inr (by simpa using hy)
          · exact .inl h
        · exact .inr h
      · rcases h with h | h
        · rcases List.mem_cons.mp h with rfl | h
          · exact .inr (by simp)
          · exact .inl h
        · exact .inr (by simp [h])
  exact hfold xs [] (.inl h)

theorem length_merge? : ∀ {s t merged : Schema}, Schema.merge? s t = some merged →
    s.length = merged.length ∧ t.length = merged.length
  | [], [], merged, h => by
    obtain rfl : [] = merged := by simpa [Schema.merge?] using h
    exact ⟨rfl, rfl⟩
  | a :: s, b :: t, merged, h => by
    unfold Schema.merge? at h
    obtain ⟨f, -, h⟩ := Option.bind_eq_some_iff.mp h
    obtain ⟨rest, hrest, h⟩ := Option.bind_eq_some_iff.mp h
    obtain rfl := Option.some.inj h
    have := length_merge? hrest
    simp [this.1, this.2]
  | [], _ :: _, _, h => by simp [Schema.merge?] at h
  | _ :: _, [], _, h => by simp [Schema.merge?] at h

theorem length_mergeAll? {known : List Schema} {merged : Schema}
    (h : mergeAll? known = some merged) : ∀ t ∈ known, t.length = merged.length := by
  have hfold : ∀ {rest : List Schema} {first : Schema},
      rest.foldlM (fun merged s => Schema.merge? merged s) first = some merged →
      ∀ t ∈ first :: rest, t.length = merged.length := by
    intro rest
    induction rest with
    | nil =>
      intro first h
      obtain rfl : first = merged := by simpa using h
      simp
    | cons s rest ih =>
      intro first h
      rw [List.foldlM_cons] at h
      obtain ⟨m, hm, h⟩ := Option.bind_eq_some_iff.mp h
      obtain ⟨hfirst, hs⟩ := length_merge? hm
      obtain ⟨hmerged, hrest⟩ := List.forall_mem_cons.mp (ih h)
      exact List.forall_mem_cons.mpr ⟨hfirst.trans hmerged,
        List.forall_mem_cons.mpr ⟨hs.trans hmerged, hrest⟩⟩
  match known, h with
  | first :: rest, h => exact hfold h

theorem allKnown?_eq_some : ∀ {inputs : Inputs} {known : List Schema},
    allKnown? inputs = some known ↔ inputs = known.map some
  | [], known => by cases known <;> simp [allKnown?]
  | s :: inputs, known => by
    rw [allKnown?_cons]
    cases s with
    | none => cases known <;> simp
    | some s =>
      rw [Option.bind_some, Option.map_eq_some_iff]
      simp only [allKnown?_eq_some]
      cases known with
      | nil => simp
      | cons t known => simp [eq_comm, and_comm]

/-- Every input of a union has as many columns as it has itself, and its columns are the parents of
those at the same places. -/
theorem parents_unionSchema {chosen uids : List Uid} {supply supply' : UidSupply} {s : Schema}
    (h : unionSchema chosen inputs supply = (some s, uids, supply')) :
    ∀ input ∈ inputs, ∃ t, input = some t ∧ t.length = s.length ∧
      ∀ (i : Nat) (f g : Field), s[i]? = some f → t[i]? = some g → g.uid ∈ f.parents := by
  unfold unionSchema at h
  split at h
  · simp at h
  rename_i known hknown
  split at h
  · simp at h
  rename_i merged hmerged
  have hlen := length_unionUids chosen merged.length supply
  generalize unionUids chosen merged.length supply = fresh at h hlen
  obtain rfl := Option.some.inj (Prod.mk.inj h).1
  rw [allKnown?_eq_some.mp hknown]
  intro input hinput
  obtain ⟨t, ht, rfl⟩ := List.mem_map.mp hinput
  refine ⟨t, rfl, ?_, fun i f g hf hg => ?_⟩
  · simp [length_mergeAll? hmerged t ht, hlen]
  · rw [List.getElem?_map, List.getElem?_zipIdx, Option.map_map] at hf
    obtain ⟨c, -, rfl⟩ := Option.map_eq_some_iff.mp hf
    refine mem_firsts (List.mem_filterMap.mpr ⟨t, ht, ?_⟩)
    simp [hg]

/-! ## Generated columns -/

theorem length_itemFields {item : Item} {fields : List (Field × Bool)}
    (hflat : item.flatten = false) (h : itemFields operator inputs item = .ok (some fields)) :
    fields.length = 1 := by
  unfold itemFields at h
  simp only [hflat, Bool.false_and, Bool.false_eq_true, if_false] at h
  split at h
  · split at h
    · simp at h
    · split at h
      · simp at h
      · simp at h
        simp [← h]
  · split at h
    · simp at h
    · simp at h
      simp [← h]

theorem length_allItemFields : ∀ {items : List Item} {fields : List (Field × Bool)},
    (∀ item ∈ items, item.flatten = false) →
    allItemFields operator inputs items = .ok (some fields) → fields.length = items.length
  | [], fields, _, h => by
    obtain rfl : [] = fields := by simpa [allItemFields] using h
    rfl
  | item :: items, fields, hflat, h => by
    obtain ⟨hitem, hflat⟩ := List.forall_mem_cons.mp hflat
    unfold allItemFields at h
    obtain ⟨made, hmade, h⟩ := Pass.except_bind_eq_ok.mp h
    cases made with
    | none => simp at h
    | some made =>
      obtain ⟨rest, hrest, h⟩ := Pass.except_bind_eq_ok.mp h
      obtain ⟨others, rfl, rfl⟩ := Option.map_eq_some_iff.mp (Except.ok.inj h)
      rw [List.length_append, length_itemFields hitem hmade, length_allItemFields hflat hrest,
        List.length_cons, Nat.add_comm]

/-- Without flattening there is a column for each item. -/
theorem length_forEachSchema {items : List Item} {s : Schema}
    (hflat : ∀ item ∈ items, item.flatten = false)
    (h : forEachSchema operator items inputs = .ok (some s)) : s.length = items.length := by
  unfold forEachSchema at h
  obtain ⟨fields, hfields, h⟩ := Pass.except_bind_eq_ok.mp h
  cases fields with
  | none => simp at h
  | some fields =>
    obtain ⟨_, -, h⟩ := Pass.except_bind_eq_ok.mp h
    obtain rfl := Option.some.inj (Except.ok.inj h)
    rw [List.length_map, length_allItemFields hflat hfields]

end Operator

end Dataflow

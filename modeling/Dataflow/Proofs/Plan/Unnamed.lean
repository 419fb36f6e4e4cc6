import Dataflow.Proofs.Plan.Layout

/-!
# Schemas without names

Names decide whether the schema of an operator can be derived at all, since two columns must not
have the same one. Beyond that they decide nothing: the other parts of the columns, identities
included, follow from the inputs without their names (`Operator.deriveSchema_unnamed`). Only the
names of the columns themselves are taken away, not those inside nested columns, which no operator
changes.
-/

namespace Dataflow

open Dataflow.Expr (Inputs)

/-- The column without its name. -/
def Field.unnamed (f : Field) : Field := { f with name := none }

@[simp] theorem Field.type_unnamed (f : Field) : f.unnamed.type = f.type := rfl

/-- The columns without their names. -/
def Schema.unnamed (s : Schema) : Schema := s.map Field.unnamed

namespace Schema

@[simp] theorem unnamed_cons (f : Field) (s : Schema) :
    unnamed (f :: s) = f.unnamed :: unnamed s := rfl

theorem unnamed_append (s t : Schema) : unnamed (s ++ t) = unnamed s ++ unnamed t :=
  List.map_append

@[simp] theorem length_unnamed (s : Schema) : (unnamed s).length = s.length := List.length_map _

@[simp] theorem unnamed_unnamed (s : Schema) : unnamed (unnamed s) = unnamed s := by
  simp [unnamed, Field.unnamed]

theorem map_unnamed_unnamed (s : Option Schema) :
    (s.map unnamed).map unnamed = s.map unnamed := by
  cases s <;> simp

@[simp] theorem uids_unnamed (s : Schema) : uids (unnamed s) = uids s := by
  simp [uids, unnamed, Field.unnamed]

theorem getElem?_unnamed (s : Schema) (i : Nat) : (unnamed s)[i]? = (s[i]?).map Field.unnamed :=
  List.getElem?_map

theorem uid_getElem?_unnamed (s : Schema) (i : Nat) :
    ((unnamed s)[i]?).map Field.uid = (s[i]?).map Field.uid := by
  rw [getElem?_unnamed, Option.map_map]
  rfl

/-- Merged columns have the name of the first one and do not depend on it otherwise. -/
theorem merge?_unnamed : ∀ s t : Schema,
    merge? (unnamed s) (unnamed t) = (merge? s t).map unnamed := by
  intro s
  induction s with
  | nil => intro t; cases t <;> rfl
  | cons f s ih =>
    intro t
    cases t with
    | nil => rfl
    | cons g t =>
      have hone : f.unnamed.merge? g.unnamed = (f.merge? g).map Field.unnamed := by
        obtain ⟨n, type, inner, u, ps⟩ := f
        show (do
          let type ← type.merge? g.type
          let inner ← nestedMerge? inner g.nested
          return (⟨none, type, inner, u, []⟩ : Field)) = _
        unfold Field.merge?
        cases type.merge? g.type with
        | none => rfl
        | some type => cases nestedMerge? inner g.nested <;> rfl
      simp only [unnamed_cons, merge?, hone, ih t]
      cases f.merge? g with
      | none => rfl
      | some h => cases merge? s t <;> rfl

end Schema

namespace Operator

/-- The inputs without names. -/
def unnamed (inputs : Inputs) : Inputs := inputs.map (·.map Schema.unnamed)

variable {inputs inputs' : Inputs} {operator : String} {names names' : List (Option String)}

theorem unnamed_cons (s : Option Schema) (inputs : Inputs) :
    unnamed (s :: inputs) = s.map Schema.unnamed :: unnamed inputs := rfl

theorem schemaOf?_unnamed (inputs : Inputs) (i : Nat) :
    Expr.schemaOf? (unnamed inputs) i = (Expr.schemaOf? inputs i).map Schema.unnamed := by
  unfold Expr.schemaOf? unnamed
  rw [List.getElem?_map]
  cases inputs[i]? with
  | none => rfl
  | some s => rfl

/-- The types of formulas do not depend on names. -/
theorem type_unnamed (f : Formula) (inputs : Inputs) : f.type (unnamed inputs) = f.type inputs := by
  have hstrips : strips (fun _ => none) (unnamed inputs) = strips (fun _ => none) inputs := by
    unfold strips unnamed
    rw [List.map_map]
    refine List.map_congr_left fun s _ => ?_
    cases s with
    | none => rfl
    | some s => simp [Schema.strip_eq_map, Schema.unnamed, Field.unnamed, Field.strip_eq]
  rw [← Formula.type_strips f (unnamed inputs), hstrips, Formula.type_strips]

theorem allKnown?_unnamed : ∀ inputs : Inputs,
    allKnown? (unnamed inputs) = (allKnown? inputs).map (·.map Schema.unnamed) := by
  intro inputs
  induction inputs with
  | nil => rfl
  | cons s inputs ih =>
    rw [unnamed_cons, allKnown?_cons, allKnown?_cons, ih]
    cases s with
    | none => rfl
    | some s => cases allKnown? inputs <;> rfl

/-! ## Unions -/

theorem mergeAll?_unnamed (known : List Schema) :
    mergeAll? (known.map Schema.unnamed) = (mergeAll? known).map Schema.unnamed := by
  cases known with
  | nil => rfl
  | cons first rest =>
    show (rest.map Schema.unnamed).foldlM (fun merged s => Schema.merge? merged s)
      (Schema.unnamed first) = (rest.foldlM (fun merged s => Schema.merge? merged s) first).map _
    induction rest generalizing first with
    | nil => rfl
    | cons s rest ih =>
      rw [List.map_cons, List.foldlM_cons, List.foldlM_cons, Schema.merge?_unnamed]
      cases Schema.merge? first s with
      | none => rfl
      | some merged => exact ih merged

theorem unionField_unnamed (known : List Schema) (uid : Uid) (f : Field) (i : Nat) :
    unionField (known.map Schema.unnamed) uid f.unnamed i = (unionField known uid f i).unnamed := by
  simp [unionField, Field.unnamed, List.filterMap_map, Schema.uid_getElem?_unnamed]

/-- A union takes the same identities. -/
theorem unionSchema_unnamed (chosen : List Uid) (inputs : Inputs) (supply : UidSupply) :
    unionSchema chosen (unnamed inputs) supply =
      ((unionSchema chosen inputs supply).1.map Schema.unnamed,
        (unionSchema chosen inputs supply).2) := by
  unfold unionSchema
  rw [allKnown?_unnamed]
  cases allKnown? inputs with
  | none => rfl
  | some known =>
    simp only [Option.map_some, mergeAll?_unnamed]
    cases mergeAll? known with
    | none => rfl
    | some merged =>
      simp only [Option.map_some, Schema.length_unnamed, Prod.mk.injEq, Option.some.injEq, and_true]
      rw [Schema.unnamed, List.zip_map_left, List.zipIdx_map, List.map_map, Schema.unnamed,
        List.map_map]
      exact List.map_congr_left fun x _ => unionField_unnamed known x.1.2 x.1.1 x.2

/-! ## Joins and products -/

theorem unnamed_qualify {input : String} : ∀ {s fields : List Field} {taken all : List String},
    qualify operator input s taken = .ok (fields, all) →
      Schema.unnamed fields = Schema.unnamed s := by
  intro s
  induction s with
  | nil =>
    intro fields taken all h
    obtain ⟨rfl, -⟩ : [] = fields ∧ taken = all := by simpa [qualify] using h
    rfl
  | cons f s ih =>
    intro fields taken all h
    unfold qualify at h
    split at h
    · obtain ⟨⟨rest, taken'⟩, hrest, h⟩ := Pass.except_bind_eq_ok.mp h
      obtain ⟨rfl, -⟩ := Prod.mk.inj (Except.ok.inj h)
      exact congrArg (f.unnamed :: ·) (ih hrest)
    · dsimp only at h
      split at h
      · cases h
      · obtain ⟨⟨rest, taken'⟩, hrest, h⟩ := Pass.except_bind_eq_ok.mp h
        obtain ⟨rfl, -⟩ := Prod.mk.inj (Except.ok.inj h)
        exact congrArg (f.unnamed :: ·) (ih hrest)

/-- All columns side by side, if they are known. -/
theorem unnamed_concatSchema : ∀ {inputs : Inputs} {names : List (Option String)}
    {taken : List String} {s : Option Schema}, names.length = inputs.length →
    concatSchema operator (inputs.zip names) taken = .ok s →
      s.map Schema.unnamed = (allKnown? (unnamed inputs)).map List.flatten := by
  intro inputs
  induction inputs with
  | nil =>
    intro names taken s _ h
    obtain rfl : some [] = s := by simpa [concatSchema] using h
    rfl
  | cons t inputs ih =>
    intro names taken s hlen h
    obtain ⟨name, names, rfl⟩ := List.exists_cons_of_length_eq_add_one hlen
    rw [List.zip_cons_cons] at h
    rw [unnamed_cons, allKnown?_cons]
    -- the columns of the first input in front of all others
    have hcons : ∀ {fields : Schema} {t : Schema} {rest : Option Schema} {taken : List String},
        Schema.unnamed fields = Schema.unnamed t →
        concatSchema operator (inputs.zip names) taken = .ok rest →
        (rest.map (fields ++ ·)).map Schema.unnamed = Option.map List.flatten
          ((allKnown? (unnamed inputs)).map (Schema.unnamed t :: ·)) := by
      intro fields t rest taken hfields hrest
      have hih := ih (by simpa using hlen) hrest
      cases hall : allKnown? (unnamed inputs) with
      | none =>
        obtain rfl : rest = none := by simpa [hall] using hih
        rfl
      | some known =>
        obtain ⟨others, rfl, hothers⟩ := Option.map_eq_some_iff.mp (hih.trans (by rw [hall]; rfl))
        simp [Schema.unnamed_append, hfields, hothers]
    cases t with
    | none =>
      obtain rfl : none = s := by simpa [concatSchema] using h
      rfl
    | some t =>
      cases name with
      | none =>
        unfold concatSchema at h
        obtain ⟨rest, hrest, h⟩ := Pass.except_bind_eq_ok.mp h
        obtain rfl := Except.ok.inj h
        exact hcons rfl hrest
      | some name =>
        unfold concatSchema at h
        obtain ⟨⟨fields, taken'⟩, hfields, h⟩ := Pass.except_bind_eq_ok.mp h
        obtain ⟨rest, hrest, h⟩ := Pass.except_bind_eq_ok.mp h
        obtain rfl := Except.ok.inj h
        exact hcons (unnamed_qualify hfields) hrest

/-! ## Generated columns -/

/-- Generated columns without names. -/
def unnamedFields (fields : List (Field × Bool)) : Schema := fields.map fun f => f.1.unnamed

theorem itemFields_unnamed (operator : String) (inputs : Inputs) (item : Item) :
    (itemFields operator (unnamed inputs) item).map (·.map unnamedFields) =
      (itemFields operator inputs item).map (·.map unnamedFields) := by
  unfold itemFields
  rw [schemaOf?_unnamed, type_unnamed]
  cases item.formula.asColumn? with
  | some c =>
    cases Expr.schemaOf? inputs 0 with
    | none => rfl
    | some s =>
      simp only [Option.map_some, Schema.getElem?_unnamed, Schema.length_unnamed]
      cases s[c.2]? with
      | none => rfl
      | some f =>
        by_cases hflat : (item.flatten && f.type.isNested) = true
        · -- a flattened column gives way to those inside it
          simp only [Option.map_some, Field.type_unnamed, hflat, if_true]
          cases hinner : f.nested with
          | none => simp [Except.map, Field.unnamed, hinner]
          | some inner =>
            simp [Except.map, unnamedFields, Field.unnamed, hinner, Function.comp_def]
        · simp only [Option.map_some, Field.type_unnamed, hflat, Bool.false_eq_true, if_false]
          simp [Except.map, unnamedFields, Field.unnamed]
  | none =>
    dsimp only
    rw [Option.isNone_map]
    split
    · rfl
    split
    · rfl
    · -- an item that is computed has the columns that it reads as parents
      cases Expr.schemaOf? inputs 0 with
      | none => rfl
      | some s => simp [Except.map, unnamedFields, Field.unnamed, Schema.uid_getElem?_unnamed]

theorem allItemFields_unnamed (operator : String) (inputs : Inputs) : ∀ items : List Item,
    (allItemFields operator (unnamed inputs) items).map (·.map unnamedFields) =
      (allItemFields operator inputs items).map (·.map unnamedFields) := by
  intro items
  induction items with
  | nil => rfl
  | cons item rest ih =>
    unfold allItemFields
    refine Pass.except_bind_map_congr (itemFields_unnamed operator inputs item)
      fun fields fields' hfields => ?_
    cases fields with
    | none =>
      obtain rfl : fields' = none := by simpa using hfields.symm
      rfl
    | some fields =>
      obtain ⟨fields', rfl, heq⟩ := Option.map_eq_some_iff.mp hfields.symm
      refine Pass.except_bind_map_congr ih fun others others' hothers => ?_
      cases others with
      | none =>
        obtain rfl : others' = none := by simpa using hothers.symm
        rfl
      | some others =>
        obtain ⟨others', rfl, heq'⟩ := Option.map_eq_some_iff.mp hothers.symm
        unfold unnamedFields at heq heq'
        simp [Except.map, unnamedFields, heq, heq']

theorem unnamed_forEachSchema {items : List Item} {s : Option Schema}
    (h : forEachSchema operator items inputs = .ok s) :
    (allItemFields operator (unnamed inputs) items).map (·.map unnamedFields) =
      .ok (s.map Schema.unnamed) := by
  rw [allItemFields_unnamed]
  unfold forEachSchema at h
  obtain ⟨fields, hfields, h⟩ := Pass.except_bind_eq_ok.mp h
  rw [hfields]
  cases fields with
  | none =>
    obtain rfl := Except.ok.inj h
    rfl
  | some fields =>
    obtain ⟨_, -, h⟩ := Pass.except_bind_eq_ok.mp h
    obtain rfl := Except.ok.inj h
    simp [Except.map, unnamedFields, Schema.unnamed]

/-! ## All operators -/

/-- Schemas that are derived and returned with the operation as it is. -/
theorem unnamed_of_bind {x x' : Result (Option Schema)} {s s' : Option Schema} {o o₁ o' : Operation}
    {supply supply₁ supply' : UidSupply}
    (h : (do return (← x, o, supply)) = .ok (s, o₁, supply₁))
    (h' : (do return (← x', o, supply)) = .ok (s', o', supply'))
    (heq : ∀ t t', x = .ok t → x' = .ok t' → t'.map Schema.unnamed = t.map Schema.unnamed) :
    s'.map Schema.unnamed = s.map Schema.unnamed ∧ o' = o := by
  obtain ⟨t, ht, h⟩ := Pass.except_bind_eq_ok.mp h
  obtain ⟨t', ht', h'⟩ := Pass.except_bind_eq_ok.mp h'
  obtain ⟨rfl, -⟩ := Prod.mk.inj (Except.ok.inj h)
  obtain ⟨rfl, hrest⟩ := Prod.mk.inj (Except.ok.inj h')
  exact ⟨heq t t' ht ht', (Prod.mk.inj hrest).1.symm⟩

/-- Where inputs differ in names only, so do the outputs; an operator that takes no identities for
the one then takes none for the other. -/
theorem deriveSchema_unnamed {op : Operator} {s s' : Option Schema} {o : Operation}
    {supply supply' : UidSupply} (hlen : names.length = inputs.length)
    (hlen' : names'.length = inputs'.length) (heq : unnamed inputs' = unnamed inputs)
    (h : op.deriveSchema inputs names supply = .ok (s, op.operation, supply))
    (h' : op.deriveSchema inputs' names' supply = .ok (s', o, supply')) :
    s'.map Schema.unnamed = s.map Schema.unnamed ∧ o = op.operation := by
  have hconcat : ∀ t t' : Option Schema,
      concatSchema op.describe (inputs.zip names) [] = .ok t →
      concatSchema op.describe (inputs'.zip names') [] = .ok t' →
      t'.map Schema.unnamed = t.map Schema.unnamed := fun _ _ ht ht' => by
    rw [unnamed_concatSchema hlen ht, unnamed_concatSchema hlen' ht', heq]
  unfold deriveSchema at h h'
  cases ho : op.operation with
  | load l =>
    rw [ho] at h h'
    obtain ⟨rfl, -⟩ := Prod.mk.inj (Except.ok.inj h)
    obtain ⟨rfl, ho', -⟩ : _ ∧ _ ∧ _ := by simpa using h'
    exact ⟨rfl, ho'.symm⟩
  | union chosen =>
    rw [ho] at h h'
    have hout := unionSchema_unnamed chosen inputs supply
    rw [← heq, unionSchema_unnamed chosen inputs' supply] at hout
    obtain ⟨hs, huids⟩ := Prod.mk.inj hout
    obtain ⟨rfl, hchosen, -⟩ : _ ∧ _ ∧ _ := by simpa using h
    obtain ⟨rfl, rfl, -⟩ : _ ∧ _ ∧ _ := by simpa using h'
    exact ⟨hs, congrArg Operation.union ((congrArg Prod.fst huids).trans hchosen)⟩
  | cross =>
    rw [ho] at h h'
    exact unnamed_of_bind h h' hconcat
  | join type keys =>
    rw [ho] at h h'
    exact unnamed_of_bind h h' hconcat
  | forEach items =>
    rw [ho] at h h'
    refine unnamed_of_bind h h' fun t t' ht ht' => ?_
    have hitems := unnamed_forEachSchema ht'
    rw [heq, unnamed_forEachSchema ht] at hitems
    exact (Except.ok.inj hitems).symm
  | _ =>
    rw [ho] at h h'
    obtain ⟨rfl, -⟩ := Prod.mk.inj (Except.ok.inj h)
    obtain ⟨rfl, ho', -⟩ : _ ∧ _ ∧ _ := by simpa using h'
    exact ⟨by rw [← schemaOf?_unnamed, heq, schemaOf?_unnamed], ho'.symm⟩

end Operator

end Dataflow

import Dataflow.Proofs.Plan.Coherent
import Dataflow.Proofs.Schema.Strip

/-!
# Layouts

The layout of a schema is what it says apart from names and identities: how many columns there are,
of which types, and the layouts of the rows inside them. Names and identities never decide what the
layout of an operator's output is; all that names can do is to make the derivation fail, where one
stands for two columns. So layouts survive a rewriting that loses or moves names.
-/

namespace Dataflow

open Dataflow.Expr (Inputs)

/-! ## Blank schemas -/

/-- The column without names and identities. -/
def Field.blank (f : Field) : Field := f.strip fun _ => none

/-- The columns without names and identities. -/
def Schema.blank (s : Schema) : Schema := Schema.strip (fun _ => none) s

theorem Schema.blank_eq_map (s : Schema) : Schema.blank s = s.map Field.blank :=
  Schema.strip_eq_map s

@[simp] theorem Schema.blank_nil : Schema.blank [] = [] := rfl

@[simp] theorem Schema.blank_cons (a : Field) (as : Schema) :
    Schema.blank (a :: as) = a.blank :: Schema.blank as := rfl

@[simp] theorem Schema.length_blank (s : Schema) : (Schema.blank s).length = s.length :=
  Schema.length_strip s

theorem Schema.blank_append (s t : Schema) :
    Schema.blank (s ++ t) = Schema.blank s ++ Schema.blank t :=
  Schema.strip_append s t

@[simp] theorem Schema.blank_blank (s : Schema) : Schema.blank (Schema.blank s) = Schema.blank s :=
  Schema.strip_strip s

namespace Field

theorem blank_eq (f : Field) : f.blank = ⟨none, f.type, f.nested.map Schema.blank, ⟨0⟩, []⟩ :=
  f.strip_eq

@[simp] theorem type_blank (f : Field) : f.blank.type = f.type := f.type_strip

@[simp] theorem nested_blank (f : Field) : f.blank.nested = f.nested.map Schema.blank :=
  f.nested_strip

@[simp] theorem blank_blank (f : Field) : f.blank.blank = f.blank := f.strip_strip

/-- Only the type and the inner columns tell blank columns apart. -/
theorem blank_congr {f g : Field} (ht : f.type = g.type) (hn : f.nested = g.nested) :
    f.blank = g.blank := by
  rw [blank_eq, blank_eq, ht, hn]

end Field

namespace Operator

/-- The inputs with blank schemas. -/
def blanks (inputs : Inputs) : Inputs := strips (fun _ => none) inputs

theorem schemaOf?_blanks (inputs : Inputs) (i : Nat) :
    Expr.schemaOf? (blanks inputs) i = (Expr.schemaOf? inputs i).map Schema.blank :=
  schemaOf?_strips inputs i

theorem allKnown?_blanks (inputs : Inputs) :
    allKnown? (blanks inputs) = (allKnown? inputs).map (·.map Schema.blank) :=
  allKnown?_strips inputs

theorem mergeAll?_blank (known : List Schema) :
    mergeAll? (known.map Schema.blank) = (mergeAll? known).map Schema.blank :=
  mergeAll?_strip known

end Operator

/-! ## Layouts of outputs -/

namespace Operation

open Operator

/-- The layout of the columns that an item generates. There is none if the item reads a column that
its input is known not to have; a layout that cannot be told is `some none`. -/
def itemLayout? (inputs : Inputs) (item : Item) : Option (Option Schema) :=
  match item.formula.asColumn? with
  | some (_, column) =>
    match Expr.schemaOf? inputs 0 with
    | none => some none
    | some schema =>
      (schema[column]?).map fun f =>
        if item.flatten && f.type.isNested then f.nested.map Schema.blank else some [f.blank]
  | none =>
    let type := item.formula.type inputs
    if !item.formula.columns.isEmpty && (Expr.schemaOf? inputs 0).isNone then some none
    else if item.flatten && type.isNested then some none
    else some (some [⟨none, type, none, ⟨0⟩, []⟩])

/-- The layout of the columns that all items generate; items behind one whose layout cannot be told
are not looked at. -/
def itemsLayout? (inputs : Inputs) : List Item → Option (Option Schema)
  | [] => some (some [])
  | item :: rest =>
    match itemLayout? inputs item with
    | none => none
    | some none => some none
    | some (some fields) => (itemsLayout? inputs rest).map (·.map (fields ++ ·))

/-- The layout of the output; none if a column is read that an input is known not to have. -/
def layout? : Operation → Inputs → Option (Option Schema)
  | .load l, _ => some (l.declared.map Schema.blank)
  | .union _, inputs => some (((allKnown? inputs).bind mergeAll?).map Schema.blank)
  | .cross, inputs | .join _ _, inputs =>
    some ((allKnown? inputs).map fun known => Schema.blank known.flatten)
  | .forEach items, inputs => itemsLayout? inputs items
  | .store _, inputs | .filter _, inputs | .distinct, inputs | .split, inputs
  | .splitOutput _, inputs | .sort _, inputs | .limit _, inputs =>
    some ((Expr.schemaOf? inputs 0).map Schema.blank)

theorem map_blank_blank (s : Option Schema) :
    (s.map Schema.blank).map Schema.blank = s.map Schema.blank := by
  cases s <;> simp

theorem itemLayout?_blanks (inputs : Inputs) (item : Item) :
    itemLayout? (blanks inputs) item = itemLayout? inputs item := by
  unfold itemLayout?
  rw [schemaOf?_blanks, blanks, Formula.type_strips]
  cases item.formula.asColumn? with
  | none => simp
  | some c =>
    cases Expr.schemaOf? inputs 0 with
    | none => rfl
    | some s =>
      simp only [Option.map_some, Schema.blank_eq_map s, List.getElem?_map, Option.map_map]
      congr 1
      funext f
      simp only [Function.comp_apply, Field.type_blank, Field.nested_blank, map_blank_blank,
        Field.blank_blank]

theorem itemsLayout?_blanks (inputs : Inputs) : ∀ items : List Item,
    itemsLayout? (blanks inputs) items = itemsLayout? inputs items
  | [] => rfl
  | item :: rest => by
    rw [itemsLayout?, itemsLayout?, itemLayout?_blanks, itemsLayout?_blanks inputs rest]

theorem blank_flatten_blank (known : List Schema) :
    Schema.blank (known.map Schema.blank).flatten = Schema.blank known.flatten := by
  induction known with
  | nil => rfl
  | cons s known ih =>
    simp only [List.map_cons, List.flatten_cons, Schema.blank_append, ih, Schema.blank_blank]

/-- The layout of the output depends on the layouts of the inputs alone. -/
theorem layout?_blanks (o : Operation) (inputs : Inputs) :
    o.layout? (blanks inputs) = o.layout? inputs := by
  have hpass : (Expr.schemaOf? (blanks inputs) 0).map Schema.blank =
      (Expr.schemaOf? inputs 0).map Schema.blank := by
    rw [schemaOf?_blanks, map_blank_blank]
  have hconcat : ((allKnown? (blanks inputs)).map fun known => Schema.blank known.flatten) =
      (allKnown? inputs).map fun known => Schema.blank known.flatten := by
    rw [allKnown?_blanks, Option.map_map]
    congr 1
    funext known
    exact blank_flatten_blank known
  cases o with
  | load l => rfl
  | forEach items => exact itemsLayout?_blanks inputs items
  | union chosen =>
    simp only [layout?, allKnown?_blanks]
    cases allKnown? inputs with
    | none => rfl
    | some known => simp only [Option.map_some, Option.bind_some, mergeAll?_blank, map_blank_blank]
  | cross => exact congrArg some hconcat
  | join t keys => exact congrArg some hconcat
  | _ => exact congrArg some hpass

/-- The layout of an output is blank. -/
theorem blank_layout? (o : Operation) (inputs : Inputs) :
    (o.layout? inputs).map (·.map Schema.blank) = o.layout? inputs := by
  have hitem : ∀ item, (itemLayout? inputs item).map (·.map Schema.blank) =
      itemLayout? inputs item := fun item => by
    unfold itemLayout?
    cases item.formula.asColumn? with
    | none =>
      dsimp only
      split
      · rfl
      split
      · rfl
      · simp [Field.blank_eq]
    | some c =>
      cases Expr.schemaOf? inputs 0 with
      | none => rfl
      | some s =>
        simp only [Option.map_map]
        congr 1
        funext f
        simp only [Function.comp_apply]
        split
        · rw [map_blank_blank]
        · simp
  have hitems : ∀ items : List Item, (itemsLayout? inputs items).map (·.map Schema.blank) =
      itemsLayout? inputs items := fun items => by
    induction items with
    | nil => rfl
    | cons item rest ih =>
      have hone := hitem item
      unfold itemsLayout?
      cases h : itemLayout? inputs item with
      | none => rfl
      | some fields? =>
        rw [h] at hone
        cases fields? with
        | none => rfl
        | some fields =>
          have hfields : Schema.blank fields = fields := by simpa using hone
          dsimp only
          rw [← ih]
          simp only [Option.map_map]
          congr 1
          funext t
          cases t <;> simp [Schema.blank_append, hfields]
  cases o with
  | forEach items => exact hitems items
  | cross | join _ _ =>
    simp only [layout?, Option.map_some, Option.map_map]
    congr 2
    funext known
    exact Schema.blank_blank _
  | _ => simp only [layout?, Option.map_some, map_blank_blank]

end Operation

/-! ## Derived schemas have the layout -/

namespace Operator

/-- How the derivation of columns may come out if their layout is known: the columns have it, or a
name stands for two columns, or a column is read that there is not. -/
def Outlines {β : Type} (operator : String) (columns : β → Schema)
    (layout : Option (Option Schema)) :
    Result (Option β) → Prop
  | .ok s => layout = some (s.map fun b => Schema.blank (columns b))
  | .error e => (∃ n, e = .duplicateColumn n operator) ∨ layout = none

variable (operator : String) (inputs : Inputs)

theorem outlines_itemFields (item : Item) : Outlines operator (List.map Prod.fst)
    (Operation.itemLayout? inputs item) (itemFields operator inputs item) := by
  unfold itemFields Operation.itemLayout?
  cases item.formula.asColumn? with
  | some c =>
    cases Expr.schemaOf? inputs 0 with
    | none => rfl
    | some s =>
      dsimp only
      cases s[c.2]? with
      | none => exact .inr rfl
      | some f =>
        dsimp only [Option.map_some]
        split
        · simp only [Outlines, Option.map_map]
          congr 2
          funext inner
          simp only [Function.comp_apply, List.map_map, Schema.blank_eq_map]
          exact List.map_congr_left fun g _ => Field.blank_congr (f := g) rfl rfl
        · simp only [Outlines, Option.map_some, List.map_cons, List.map_nil,
            Schema.blank_cons, Schema.blank_nil, Field.blank_eq]
  | none =>
    dsimp only
    split
    · rfl
    split
    · rfl
    · simp [Outlines, Field.blank_eq]

theorem outlines_allItemFields : ∀ items : List Item, Outlines operator (List.map Prod.fst)
    (Operation.itemsLayout? inputs items) (allItemFields operator inputs items)
  | [] => rfl
  | item :: rest => by
    have hitem := outlines_itemFields operator inputs item
    have hrest := outlines_allItemFields rest
    unfold allItemFields Operation.itemsLayout?
    cases h : itemFields operator inputs item with
    | error e =>
      rw [h] at hitem
      rcases hitem with hdup | hnone
      · exact .inl hdup
      · rw [hnone]; exact .inr rfl
    | ok fields? =>
      rw [h] at hitem
      rw [show Operation.itemLayout? inputs item = _ from hitem]
      cases fields? with
      | none => rfl
      | some fields =>
        dsimp only [Option.map_some]
        cases h' : allItemFields operator inputs rest with
        | error e =>
          rw [h'] at hrest
          rcases hrest with hdup | hnone
          · exact .inl hdup
          · rw [hnone]; exact .inr rfl
        | ok others =>
          rw [h'] at hrest
          rw [show Operation.itemsLayout? inputs rest = _ from hrest]
          simp only [Pass.except_ok_bind, Pass.except_pure, Outlines, Option.map_some,
            Option.map_map]
          congr 2
          funext b
          simp [Schema.blank_append]

theorem checkNames_eq_error {e : Error} : ∀ {fields : List (Field × Bool)}
    {seen : List (String × Bool)}, checkNames operator fields seen = .error e →
    ∃ n, e = .duplicateColumn n operator
  | [], _, h => by simp [checkNames] at h
  | (f, flattened) :: rest, seen, h => by
    unfold checkNames at h
    split at h
    · exact checkNames_eq_error h
    split at h
    · exact checkNames_eq_error h
    split at h
    · exact checkNames_eq_error h
    · exact ⟨_, (Except.error.inj h).symm⟩

theorem outlines_forEachSchema (items : List Item) : Outlines operator id
    (Operation.itemsLayout? inputs items) (forEachSchema operator items inputs) := by
  have hitems := outlines_allItemFields operator inputs items
  unfold forEachSchema
  cases h : allItemFields operator inputs items with
  | error e => rw [h] at hitems; exact hitems
  | ok fields? =>
    rw [h] at hitems
    cases fields? with
    | none => exact hitems
    | some fields =>
      simp only [Pass.except_ok_bind]
      cases hnames : checkNames operator fields [] with
      | error e => exact .inl (checkNames_eq_error operator hnames)
      | ok u => exact hitems

theorem qualify_eq_error {input : String} {e : Error} : ∀ {s : List Field} {taken : List String},
    qualify operator input s taken = .error e → ∃ n, e = .duplicateColumn n operator
  | [], _, h => by simp [qualify] at h
  | f :: rest, taken, h => by
    unfold qualify at h
    split at h
    · rcases Pass.except_bind_eq_error.mp h with h | ⟨_, -, h⟩
      · exact qualify_eq_error h
      · simp at h
    · dsimp only at h
      split at h
      · exact ⟨_, (Except.error.inj h).symm⟩
      · rcases Pass.except_bind_eq_error.mp h with h | ⟨_, -, h⟩
        · exact qualify_eq_error h
        · simp at h

theorem blank_qualify {input : String} : ∀ {s fields : List Field} {taken all : List String},
    qualify operator input s taken = .ok (fields, all) → Schema.blank fields = Schema.blank s
  | [], fields, taken, all, h => by
    obtain ⟨rfl, -⟩ : [] = fields ∧ taken = all := by simpa [qualify] using h
    rfl
  | f :: rest, fields, taken, all, h => by
    unfold qualify at h
    split at h
    · obtain ⟨r, hr, h⟩ := Pass.except_bind_eq_ok.mp h
      obtain ⟨rfl, -⟩ : f :: r.1 = fields ∧ r.2 = all := by simpa using h
      rw [Schema.blank_cons, Schema.blank_cons, blank_qualify hr]
    · dsimp only at h
      split at h
      · simp at h
      · obtain ⟨r, hr, h⟩ := Pass.except_bind_eq_ok.mp h
        obtain ⟨rfl, -⟩ : _ :: r.1 = fields ∧ r.2 = all := by simpa using h
        simp only [Schema.blank_cons, blank_qualify hr, Field.blank_eq]

/-- The columns of the first input before those of the others. -/
theorem outlines_append {s fields : Schema} {rest : Inputs} {others : Result (Option Schema)}
    (hfields : Schema.blank fields = Schema.blank s)
    (hothers : Outlines operator id
      (some ((allKnown? rest).map fun known => Schema.blank known.flatten)) others) :
    Outlines operator id
      (some ((allKnown? (some s :: rest)).map fun known => Schema.blank known.flatten))
      (do return (← others).map (fields ++ ·)) := by
  cases others with
  | error e => exact .inl (hothers.resolve_right (by simp))
  | ok t =>
    have hothers : (allKnown? rest).map (fun known => Schema.blank known.flatten) =
      t.map Schema.blank := Option.some.inj hothers
    rw [allKnown?_cons]
    simp only [Pass.except_ok_bind, Pass.except_pure, Outlines, Option.map_map, Option.bind_some]
    congr 1
    cases hk : allKnown? rest with
    | none => cases t <;> simp_all
    | some known =>
      cases t with
      | none => simp [hk] at hothers
      | some t =>
        simp only [hk, Option.map_some, Option.some.injEq] at hothers
        simp [Schema.blank_append, hfields, hothers]

theorem outlines_concatSchema : ∀ {inputs : Inputs} {names : List (Option String)}
    {taken : List String}, names.length = inputs.length → Outlines operator id
      (some ((allKnown? inputs).map fun known => Schema.blank known.flatten))
      (concatSchema operator (inputs.zip names) taken)
  | [], _, _, _ => rfl
  | none :: inputs, name :: names, taken, _ => by
    rw [allKnown?_cons]
    rfl
  | some s :: inputs, none :: names, taken, hlen =>
    outlines_append operator rfl (outlines_concatSchema (by simpa using hlen))
  | some s :: inputs, some input :: names, taken, hlen => by
    rw [List.zip_cons_cons]
    unfold concatSchema
    cases h : qualify operator input s taken with
    | error e => exact .inl (qualify_eq_error operator h)
    | ok r =>
      exact outlines_append operator (blank_qualify operator h)
        (outlines_concatSchema (by simpa using hlen))

theorem length_unionUids (chosen : List Uid) (columns : Nat) (supply : UidSupply) :
    (unionUids chosen columns supply).1.length = columns := by
  unfold unionUids
  split
  · assumption
  · exact Plan.length_takeUids _ _

theorem blank_unionSchema (chosen : List Uid) (supply : UidSupply) :
    (unionSchema chosen inputs supply).1.map Schema.blank =
      ((allKnown? inputs).bind mergeAll?).map Schema.blank := by
  unfold unionSchema
  cases allKnown? inputs with
  | none => rfl
  | some known =>
    dsimp only [Option.bind_some]
    cases hm : mergeAll? known with
    | none => rfl
    | some merged =>
      have hlen := length_unionUids chosen merged.length supply
      simp only [Option.map_some, Option.some.injEq, Schema.blank_eq_map]
      refine List.ext_getElem (by simp [hlen]) fun i h₁ h₂ => ?_
      simp only [List.getElem_map, List.getElem_zipIdx, List.getElem_zip]
      exact Field.blank_congr rfl rfl

/-- A derived schema has the layout of the operation. A derivation fails only because a name stands
for two columns or because a column is read that there is not. -/
theorem outlines_deriveSchema (op : Operator) {names : List (Option String)}
    (hlen : names.length = inputs.length) (supply : UidSupply) :
    Outlines op.describe id (op.operation.layout? inputs)
      ((op.deriveSchema inputs names supply).map Prod.fst) := by
  have hconcat : Outlines op.describe id
      (some ((allKnown? inputs).map fun known => Schema.blank known.flatten))
      (concatSchema op.describe (inputs.zip names) []) := outlines_concatSchema op.describe hlen
  unfold deriveSchema
  cases ho : op.operation with
  | load l => rfl
  | forEach items =>
    have := outlines_forEachSchema op.describe inputs items
    dsimp only
    cases h : forEachSchema op.describe items inputs with
    | error e => rw [h] at this; exact this
    | ok s => rw [h] at this; exact this
  | union chosen => exact congrArg some (blank_unionSchema inputs chosen supply).symm
  | cross =>
    dsimp only
    cases h : concatSchema op.describe (inputs.zip names) [] with
    | error e => rw [h] at hconcat; exact hconcat
    | ok s => rw [h] at hconcat; exact hconcat
  | join t keys =>
    dsimp only
    cases h : concatSchema op.describe (inputs.zip names) [] with
    | error e => rw [h] at hconcat; exact hconcat
    | ok s => rw [h] at hconcat; exact hconcat
  | _ => rfl

/-! ## How deriving fails -/

theorem itemFields_eq_error {item : Item} {e : Error}
    (h : itemFields operator inputs item = .error e) :
    ∃ column width, e = .schema (.columnRange operator column width) := by
  unfold itemFields at h
  cases hc : item.formula.asColumn? with
  | some c =>
    rw [hc] at h
    cases hs : Expr.schemaOf? inputs 0 with
    | none => rw [hs] at h; simp at h
    | some s =>
      rw [hs] at h
      cases hf : s[c.2]? with
      | none =>
        simp only [hf] at h
        exact ⟨_, _, (Except.error.inj h).symm⟩
      | some f =>
        simp only [hf] at h
        split at h <;> simp at h
  | none =>
    rw [hc] at h
    dsimp only at h
    split at h
    · simp at h
    · split at h <;> simp at h

theorem allItemFields_eq_error {e : Error} : ∀ {items : List Item},
    allItemFields operator inputs items = .error e →
      ∃ column width, e = .schema (.columnRange operator column width)
  | [], h => by simp [allItemFields] at h
  | item :: rest, h => by
    unfold allItemFields at h
    rcases Pass.except_bind_eq_error.mp h with h | ⟨fields?, -, h⟩
    · exact itemFields_eq_error operator inputs h
    cases fields? with
    | none => simp at h
    | some fields =>
      rcases Pass.except_bind_eq_error.mp h with h | ⟨_, -, h⟩
      · exact allItemFields_eq_error h
      · simp at h

theorem concatSchema_eq_error {e : Error} : ∀ {inputs : List (Option Schema × Option String)}
    {taken : List String}, concatSchema operator inputs taken = .error e →
      ∃ n, e = .duplicateColumn n operator
  | [], _, h => by simp [concatSchema] at h
  | (none, _) :: _, _, h => by simp [concatSchema] at h
  | (some s, none) :: rest, taken, h => by
    unfold concatSchema at h
    rcases Pass.except_bind_eq_error.mp h with h | ⟨_, -, h⟩
    · exact concatSchema_eq_error h
    · simp at h
  | (some s, some input) :: rest, taken, h => by
    unfold concatSchema at h
    rcases Pass.except_bind_eq_error.mp h with h | ⟨_, -, h⟩
    · exact qualify_eq_error operator h
    rcases Pass.except_bind_eq_error.mp h with h | ⟨_, -, h⟩
    · exact concatSchema_eq_error h
    · simp at h

/-- A derivation fails only because a name stands for two columns or because a column is read that
there is not. -/
theorem deriveSchema_eq_error {op : Operator} {names : List (Option String)} {supply : UidSupply}
    {e : Error} (h : op.deriveSchema inputs names supply = .error e) :
    (∃ n, e = .duplicateColumn n op.describe) ∨
      ∃ column width, e = .schema (.columnRange op.describe column width) := by
  unfold deriveSchema at h
  split at h
  · simp at h
  · simp at h
  · rcases Pass.except_bind_eq_error.mp h with h | ⟨_, -, h⟩
    · exact .inl (concatSchema_eq_error _ h)
    · simp at h
  · rcases Pass.except_bind_eq_error.mp h with h | ⟨_, -, h⟩
    · exact .inl (concatSchema_eq_error _ h)
    · simp at h
  · rcases Pass.except_bind_eq_error.mp h with h | ⟨_, -, h⟩
    · unfold forEachSchema at h
      rcases Pass.except_bind_eq_error.mp h with h | ⟨fields?, -, h⟩
      · exact .inr (allItemFields_eq_error _ _ h)
      cases fields? with
      | none => simp at h
      | some fields =>
        rcases Pass.except_bind_eq_error.mp h with h | ⟨_, -, h⟩
        · exact .inl (checkNames_eq_error _ h)
        · simp at h
    · simp at h
  · simp at h

end Operator

end Dataflow

import Dataflow.Proofs.Engine.Operations
import Dataflow.Proofs.Plan.Growth
import Dataflow.Proofs.Plan.Outline

/-!
# Operators without the identities of their columns

An operator that is added to a plan has its declared or generated columns numbered, so the numbers
depend on what was added before. They never decide what an operator does: what it makes of its
inputs (`Operation.meaning_unnumbered`) and the outline of its output
(`Operator.outline?_unnumbered`) are those of the operator without them.
-/

namespace Dataflow

open Dataflow.Expr (Inputs)

mutual

/-- Fresh identities do not change the outline. -/
theorem Field.outline_withFreshUids : ∀ (f : Field) (supply : UidSupply),
    (f.withFreshUids supply).1.outline = f.outline
  | ⟨_, _, inner, _, _⟩, supply => by
    unfold Field.withFreshUids
    simp only [Field.outline, Field.strip]
    exact congrArg (fun inner => Field.mk _ _ inner _ _)
      (Schema.nestedOutline_withFreshUids inner _)

theorem Schema.nestedOutline_withFreshUids : ∀ (inner : Option (List Field)) (supply : UidSupply),
    Schema.nestedStrip id (Schema.nestedWithFreshUids inner supply).1 = Schema.nestedStrip id inner
  | none, _ => rfl
  | some s, supply => congrArg some (Schema.outline_withFreshUids s supply)

theorem Schema.outline_withFreshUids : ∀ (s : List Field) (supply : UidSupply),
    Schema.outline (Schema.withFreshUids s supply).1 = Schema.outline s
  | [], _ => rfl
  | f :: s, supply => by
    unfold Schema.withFreshUids
    rw [Schema.outline_cons, Schema.outline_cons, Field.outline_withFreshUids f,
      Schema.outline_withFreshUids s]

end

/-- The layout of a schema is that of its outline. -/
theorem Schema.blank_outline (s : Schema) : Schema.blank (Schema.outline s) = Schema.blank s :=
  Schema.strip_strip s

/-- The item without the identity of its column. -/
def Item.unnumbered (item : Item) : Item := { item with uid := ⟨0⟩ }

namespace Relation

theorem generateRow_unnumbered (row : Row) : ∀ (items : List Item) (partials : Relation),
    generateRow row (items.map Item.unnumbered) partials = generateRow row items partials
  | [], _ => rfl
  | item :: items, partials => by
    rw [List.map_cons]
    unfold generateRow
    simp only [generateRow_unnumbered row items, Item.unnumbered]

theorem generated_unnumbered (items : List Item) :
    generated (items.map Item.unnumbered) = generated items :=
  funext fun row => by rw [generated, generated, generateRow_unnumbered]

end Relation

namespace Operation

/-- The operation without the identities of its columns. -/
def unnumbered : Operation → Operation
  | .load l => .load { l with declared := l.declared.map Schema.outline }
  | .forEach items => .forEach (items.map Item.unnumbered)
  | o => o.withoutUids

@[simp] theorem type_unnumbered (o : Operation) : o.unnumbered.type = o.type := by
  cases o <;> rfl

@[simp] theorem location?_unnumbered (o : Operation) : o.unnumbered.location? = o.location? := by
  cases o <;> rfl

@[simp] theorem formulas_unnumbered (o : Operation) : o.unnumbered.formulas = o.formulas := by
  cases o with
  | forEach items =>
    show (items.map Item.unnumbered).map Item.formula = items.map Item.formula
    rw [List.map_map]
    rfl
  | _ => rfl

@[simp] theorem unnumbered_withoutUids (o : Operation) :
    o.withoutUids.unnumbered = o.unnumbered := by
  cases o <;> rfl

theorem unnumbered_withItemUids : ∀ (items : List Item) (supply : UidSupply),
    (withItemUids items supply).1.map Item.unnumbered = items.map Item.unnumbered
  | [], _ => rfl
  | item :: items, supply => by
    unfold withItemUids
    rw [List.map_cons, List.map_cons, unnumbered_withItemUids items]
    rfl

/-- Numbering the columns changes nothing else. -/
@[simp] theorem unnumbered_withUids (o : Operation) (supply : UidSupply) :
    (o.withUids supply).1.unnumbered = o.unnumbered := by
  cases o with
  | load l =>
    obtain ⟨location, declared, requiredKeys⟩ := l
    cases declared with
    | none => rfl
    | some schema =>
      unfold withUids
      dsimp only
      split
      · simp only [unnumbered, Option.map_some, Schema.outline_withFreshUids]
      · rfl
  | forEach items => exact congrArg Operation.forEach (unnumbered_withItemUids items supply)
  | _ => rfl

/-! ## Meaning -/

/-- A load finds the same, though its errors may show identities. -/
theorem load_unnumbered (l : Load) (s : Storage) :
    (Engine.load { l with declared := l.declared.map Schema.outline } s).toOption =
      (Engine.load l s).toOption := by
  unfold Engine.load
  cases Storage.Handle.pointAt l.location with
  | error e => rfl
  | ok handle =>
    cases l.declared with
    | none => rfl
    | some schema =>
      simp only [Option.map_some, Pass.except_ok_bind, Storage.Handle.checkSchema,
        Schema.length_outline]
      cases handle.current with
      | error e => rfl
      | ok location =>
        simp only [Pass.except_ok_bind]
        -- whether the widths are right, on which only the error depends
        generalize List.find? _ _ = found
        cases found with
        | none => rfl
        | some x => rfl

@[simp] theorem rows_unnumbered (s : Storage) (o : Operation) (ms : List Meaning) :
    o.unnumbered.rows s ms = o.rows s ms := by
  cases o with
  | load l => exact congrArg (Option.getD · []) (load_unnumbered l s)
  | forEach items => simp only [unnumbered, rows, Relation.generated_unnumbered]
  | _ => rfl

theorem itemsLayout?_unnumbered (inputs : Inputs) : ∀ items : List Item,
    itemsLayout? inputs (items.map Item.unnumbered) = itemsLayout? inputs items
  | [] => rfl
  | item :: items => by
    rw [List.map_cons]
    unfold itemsLayout?
    rw [itemsLayout?_unnumbered inputs items]
    rfl

@[simp] theorem layout?_unnumbered (o : Operation) (inputs : Inputs) :
    o.unnumbered.layout? inputs = o.layout? inputs := by
  cases o with
  | load l =>
    simp only [unnumbered, layout?, Option.map_map]
    congr 2
    exact funext Schema.blank_outline
  | forEach items => exact itemsLayout?_unnumbered inputs items
  | _ => rfl

@[simp] theorem meaning_unnumbered (s : Storage) (o : Operation) (ms : List Meaning) :
    o.unnumbered.meaning s ms = o.meaning s ms := by
  rw [meaning, meaning, rows_unnumbered, layout?_unnumbered]

end Operation

namespace Operator

/-- The operator without the identities of its columns. -/
def unnumbered (op : Operator) : Operator :=
  { op with operation := op.operation.unnumbered, memo := none }

@[simp] theorem name_unnumbered (op : Operator) : op.unnumbered.name = op.name := rfl

@[simp] theorem type_unnumbered (op : Operator) : op.unnumbered.type = op.type :=
  Operation.type_unnumbered op.operation

@[simp] theorem describe_unnumbered (op : Operator) : op.unnumbered.describe = op.describe := by
  rw [describe, describe, type_unnumbered, name_unnumbered]

@[simp] theorem unnumbered_core (op : Operator) : op.core.unnumbered = op.unnumbered := by
  rw [unnumbered, operation_core, Operation.unnumbered_withoutUids]
  rfl

/-! ## Outlines -/

theorem itemFields_unnumbered (operator : String) (inputs : Inputs) (item : Item) :
    (itemFields operator inputs item.unnumbered).map (·.map outlineFields) =
      (itemFields operator inputs item).map (·.map outlineFields) := by
  unfold itemFields
  simp only [Item.unnumbered]
  cases item.formula.asColumn? with
  | some c => rfl
  | none =>
    dsimp only
    split
    · rfl
    split
    · rfl
    · simp [Except.map, outlineFields, Field.outline_eq]

/-- The outline does not depend on the identities of generated columns. -/
@[simp] theorem outline?_unnumbered (op : Operator) (inputs : Inputs)
    (names : List (Option String)) :
    op.unnumbered.outline? inputs names = op.outline? inputs names := by
  unfold outline?
  rw [describe_unnumbered]
  unfold unnumbered
  dsimp only
  cases op.operation with
  | load l => simp only [Operation.unnumbered, Schema.map_outline_outline]
  | forEach items =>
    refine forEachSchema_congr (allItemFields_congr ?_)
    rw [List.forall₂_map_left_iff]
    exact List.forall₂_same.mpr fun item _ => itemFields_unnumbered op.describe inputs item
  | _ => rfl

end Operator

/-- Adding an operator to a plan changes it only in identities. -/
@[simp] theorem Plan.unnumbered_numbered (p : Plan) (op : Operator) :
    (p.numbered op).unnumbered = op.unnumbered := by
  unfold numbered Operator.unnumbered
  rw [Operation.unnumbered_withUids]

end Dataflow

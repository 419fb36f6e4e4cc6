import Dataflow.Plan.Derive

/-!
# Schemas without identities

Identities tell columns apart, but never decide which columns there are: merging schemas and finding
the type of a formula look at types and inner columns alone. `Schema.strip` takes the identities
away and passes every name through a function, so that one set of lemmas serves the two readings of
a schema: with its names (`Schema.outline`), and by its types alone.
-/

namespace Dataflow

open Dataflow.Expr (Inputs)

variable {ρ σ : Option String → Option String}

mutual

/-- The column without identities, its name passed through a function. -/
def Field.strip (ρ : Option String → Option String) : Field → Field
  | ⟨n, t, inner, _, _⟩ => ⟨ρ n, t, Schema.nestedStrip ρ inner, ⟨0⟩, []⟩

def Schema.nestedStrip (ρ : Option String → Option String) : Option (List Field) →
    Option (List Field)
  | none => none
  | some s => some (Schema.strip ρ s)

/-- The columns without identities, their names passed through a function. -/
def Schema.strip (ρ : Option String → Option String) : List Field → List Field
  | [] => []
  | a :: as => a.strip ρ :: Schema.strip ρ as

end

theorem Schema.strip_eq_map : ∀ s : Schema, Schema.strip ρ s = s.map (Field.strip ρ)
  | [] => rfl
  | a :: as => by rw [Schema.strip, List.map_cons, Schema.strip_eq_map as]

theorem Schema.nestedStrip_eq : ∀ s : Option Schema,
    Schema.nestedStrip ρ s = s.map (Schema.strip ρ)
  | none => rfl
  | some _ => rfl

namespace Field

@[simp] theorem name_strip (f : Field) : (f.strip ρ).name = ρ f.name := by
  cases f; rfl

@[simp] theorem type_strip (f : Field) : (f.strip ρ).type = f.type := by
  cases f; rfl

@[simp] theorem nested_strip (f : Field) : (f.strip ρ).nested = f.nested.map (Schema.strip ρ) := by
  cases f
  rw [strip, Schema.nestedStrip_eq]

theorem strip_eq (f : Field) :
    f.strip ρ = ⟨ρ f.name, f.type, f.nested.map (Schema.strip ρ), ⟨0⟩, []⟩ := by
  cases f
  rw [strip, Schema.nestedStrip_eq]

end Field

namespace Schema

@[simp] theorem length_strip (s : Schema) : (strip ρ s).length = s.length := by
  rw [strip_eq_map, List.length_map]

theorem strip_append (s t : Schema) : strip ρ (s ++ t) = strip ρ s ++ strip ρ t := by
  simp only [strip_eq_map, List.map_append]

theorem getElem?_strip (s : Schema) (i : Nat) : (strip ρ s)[i]? = (s[i]?).map (Field.strip ρ) := by
  rw [strip_eq_map, List.getElem?_map]

end Schema

mutual

theorem Field.strip_strip : ∀ f : Field, (f.strip σ).strip ρ = f.strip (ρ ∘ σ)
  | ⟨n, t, inner, u, ps⟩ => by
    simp only [Field.strip, Schema.nestedStrip_nestedStrip inner, Function.comp_apply]

theorem Schema.nestedStrip_nestedStrip : ∀ s : Option (List Field),
    Schema.nestedStrip ρ (Schema.nestedStrip σ s) = Schema.nestedStrip (ρ ∘ σ) s
  | none => rfl
  | some s => by simp only [Schema.nestedStrip, Schema.strip_strip s]

theorem Schema.strip_strip : ∀ s : List Field,
    Schema.strip ρ (Schema.strip σ s) = Schema.strip (ρ ∘ σ) s
  | [] => rfl
  | a :: as => by simp only [Schema.strip, Field.strip_strip a, Schema.strip_strip as]

end

/-! ## Merging -/

mutual

theorem Field.merge?_strip : ∀ a b : Field,
    (a.strip ρ).merge? (b.strip ρ) = (a.merge? b).map (Field.strip ρ)
  | ⟨n, t, inner, u, ps⟩, b => by
    have ih := Schema.nestedMerge?_strip inner b.nested
    simp only [Field.strip, Field.merge?, Field.type_strip, Field.nested_strip,
      ← Schema.nestedStrip_eq b.nested, ih]
    cases t.merge? b.type with
    | none => rfl
    | some t' =>
      cases Schema.nestedMerge? inner b.nested with
      | none => rfl
      | some inner' => simp [Field.strip]

theorem Schema.nestedMerge?_strip : ∀ s t : Option (List Field),
    Schema.nestedMerge? (Schema.nestedStrip ρ s) (Schema.nestedStrip ρ t) =
      (Schema.nestedMerge? s t).map (Schema.nestedStrip ρ)
  | none, t => by cases t <;> rfl
  | some s, none => rfl
  | some s, some t => by
    simp only [Schema.nestedStrip, Schema.nestedMerge?, Schema.merge?_strip s t, Option.map_map]
    rfl

/-- Merged columns have the names of the first ones, and their types are merged from types. -/
theorem Schema.merge?_strip : ∀ s t : List Field,
    Schema.merge? (Schema.strip ρ s) (Schema.strip ρ t) = (Schema.merge? s t).map (Schema.strip ρ)
  | [], [] => rfl
  | [], _ :: _ => rfl
  | _ :: _, [] => rfl
  | a :: as, b :: bs => by
    simp only [Schema.strip, Schema.merge?, Field.merge?_strip a b, Schema.merge?_strip as bs]
    cases a.merge? b with
    | none => rfl
    | some f => cases Schema.merge? as bs <;> rfl

end

namespace Operator

theorem mergeAll?_strip (known : List Schema) :
    mergeAll? (known.map (Schema.strip ρ)) = (mergeAll? known).map (Schema.strip ρ) := by
  cases known with
  | nil => rfl
  | cons first rest =>
    have hfold : ∀ (rest : List Schema) (s : Schema),
        (rest.map (Schema.strip ρ)).foldlM (fun merged t => Schema.merge? merged t)
            (Schema.strip ρ s) =
          (rest.foldlM (fun merged t => Schema.merge? merged t) s).map (Schema.strip ρ) := by
      intro rest
      induction rest with
      | nil => intro s; rfl
      | cons t rest ih =>
        intro s
        rw [List.map_cons, List.foldlM_cons, List.foldlM_cons, Schema.merge?_strip]
        cases Schema.merge? s t with
        | none => rfl
        | some merged => exact ih merged
    exact hfold rest first

/-- The inputs without identities. -/
def strips (ρ : Option String → Option String) (inputs : Inputs) : Inputs :=
  inputs.map (·.map (Schema.strip ρ))

theorem strips_cons (s : Option Schema) (inputs : Inputs) :
    strips ρ (s :: inputs) = s.map (Schema.strip ρ) :: strips ρ inputs := rfl

theorem schemaOf?_strips (inputs : Inputs) (i : Nat) :
    Expr.schemaOf? (strips ρ inputs) i = (Expr.schemaOf? inputs i).map (Schema.strip ρ) := by
  unfold Expr.schemaOf? strips
  rw [List.getElem?_map]
  cases inputs[i]? with
  | none => rfl
  | some s => rfl

theorem allKnown?_cons (s : Option Schema) (inputs : Inputs) :
    allKnown? (s :: inputs) = s.bind fun s => (allKnown? inputs).map (s :: ·) := by
  unfold allKnown?
  rw [List.mapM_cons]
  cases s with
  | none => rfl
  | some s => cases inputs.mapM id <;> rfl

theorem allKnown?_strips : ∀ inputs : Inputs,
    allKnown? (strips ρ inputs) = (allKnown? inputs).map (·.map (Schema.strip ρ))
  | [] => rfl
  | s :: inputs => by
    rw [strips_cons, allKnown?_cons, allKnown?_cons, allKnown?_strips inputs]
    cases s with
    | none => rfl
    | some s => cases allKnown? inputs <;> rfl

end Operator

/-- The type of a formula does not depend on names and identities. -/
theorem Formula.type_strips (f : Formula) (inputs : Inputs) :
    f.type (Operator.strips ρ inputs) = f.type inputs := by
  have : Unfolding.typeNode (Operator.strips ρ inputs) = Unfolding.typeNode inputs := by
    funext id t operands
    cases t with
    | column input i name =>
      unfold Unfolding.typeNode
      dsimp only
      rw [Operator.schemaOf?_strips]
      cases Expr.schemaOf? inputs input with
      | none => rfl
      | some s =>
        simp only [Option.map_some, Option.bind_eq_bind, Option.bind_some, Schema.getElem?_strip,
          Option.map_map]
        congr 2
        funext f
        exact Field.type_strip f
    | const v => rfl
    | unary op => cases op <;> rfl
    | binary op => cases op <;> rfl
  unfold Formula.type Unfolding.type
  rw [this]

end Dataflow

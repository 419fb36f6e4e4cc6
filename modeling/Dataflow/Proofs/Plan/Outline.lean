import Dataflow.Proofs.Plan.Edit
import Dataflow.Proofs.Plan.Layout
import Dataflow.Proofs.Plan.Requests

/-!
# Outlines

The outline of a schema is all that it says apart from identities: the names of the columns, their
types, and the outlines of the rows inside them. How the derivation of a schema comes out, be it a
schema or a failure, depends on the outlines and the names of the inputs alone
(`Operator.outline_deriveSchema`, `Operator.outline?_outlines`). So outlines that satisfy the
equations of a plan (`Plan.Outlined`) are those of its derived schemas, and there are such outlines
exactly if all schemas can be derived.
-/

namespace Dataflow

open Dataflow.Expr (Inputs)

/-! ## Outlines of schemas -/

/-- The column without identities. -/
def Field.outline (f : Field) : Field := f.strip id

/-- The columns without identities. -/
def Schema.outline (s : Schema) : Schema := Schema.strip id s

namespace Field

@[simp] theorem name_outline (f : Field) : f.outline.name = f.name := f.name_strip

@[simp] theorem type_outline (f : Field) : f.outline.type = f.type := f.type_strip

@[simp] theorem nested_outline (f : Field) : f.outline.nested = f.nested.map Schema.outline :=
  f.nested_strip

@[simp] theorem outline_outline (f : Field) : f.outline.outline = f.outline := f.strip_strip

theorem outline_eq (f : Field) :
    f.outline = ⟨f.name, f.type, f.nested.map Schema.outline, ⟨0⟩, []⟩ := f.strip_eq

end Field

namespace Schema

theorem outline_eq_map (s : Schema) : outline s = s.map Field.outline := strip_eq_map s

@[simp] theorem outline_nil : outline [] = [] := rfl

@[simp] theorem outline_cons (a : Field) (as : Schema) :
    outline (a :: as) = a.outline :: outline as := rfl

theorem outline_append (s t : Schema) : outline (s ++ t) = outline s ++ outline t :=
  strip_append s t

@[simp] theorem length_outline (s : Schema) : (outline s).length = s.length := length_strip s

@[simp] theorem outline_outline (s : Schema) : outline (outline s) = outline s := strip_strip s

theorem map_outline_outline (s : Option Schema) :
    (s.map outline).map outline = s.map outline := by
  cases s <;> simp

end Schema

namespace Operator

/-- The inputs without identities. -/
def outlines (inputs : Inputs) : Inputs := strips id inputs

theorem outlines_cons (s : Option Schema) (inputs : Inputs) :
    outlines (s :: inputs) = s.map Schema.outline :: outlines inputs := rfl

theorem schemaOf?_outlines (inputs : Inputs) (i : Nat) :
    Expr.schemaOf? (outlines inputs) i = (Expr.schemaOf? inputs i).map Schema.outline :=
  schemaOf?_strips inputs i

theorem allKnown?_outlines (inputs : Inputs) :
    allKnown? (outlines inputs) = (allKnown? inputs).map (·.map Schema.outline) :=
  allKnown?_strips inputs

theorem mergeAll?_outline (known : List Schema) :
    mergeAll? (known.map Schema.outline) = (mergeAll? known).map Schema.outline :=
  mergeAll?_strip known

/-! ## Outlines of outputs -/

/-- The outline of the output, or how its derivation fails. -/
def outline? (op : Operator) (inputs : Inputs) (names : List (Option String)) :
    Result (Option Schema) :=
  match op.operation with
  | .load l => .ok (l.declared.map Schema.outline)
  | .union _ => .ok (((allKnown? inputs).bind mergeAll?).map Schema.outline)
  | .cross | .join _ _ =>
    (concatSchema op.describe (inputs.zip names) []).map (·.map Schema.outline)
  | .forEach items => (forEachSchema op.describe items inputs).map (·.map Schema.outline)
  | _ => .ok ((Expr.schemaOf? inputs 0).map Schema.outline)

theorem outline_unionSchema (chosen : List Uid) (inputs : Inputs) (supply : UidSupply) :
    (unionSchema chosen inputs supply).1.map Schema.outline =
      ((allKnown? inputs).bind mergeAll?).map Schema.outline := by
  unfold unionSchema
  cases allKnown? inputs with
  | none => rfl
  | some known =>
    dsimp only [Option.bind_some]
    cases hm : mergeAll? known with
    | none => rfl
    | some merged =>
      have hlen := length_unionUids chosen merged.length supply
      simp only [Option.map_some, Option.some.injEq, Schema.outline_eq_map]
      refine List.ext_getElem (by simp [hlen]) fun i h₁ h₂ => ?_
      simp only [List.getElem_map, List.getElem_zipIdx, List.getElem_zip, unionField,
        Field.outline_eq]

/-- Deriving a schema comes out as the outline says. -/
theorem outline_deriveSchema (op : Operator) (inputs : Inputs) (names : List (Option String))
    (supply : UidSupply) :
    (op.deriveSchema inputs names supply).map (fun r => r.1.map Schema.outline) =
      op.outline? inputs names := by
  unfold deriveSchema outline?
  cases op.operation with
  | union chosen => exact congrArg Except.ok (outline_unionSchema chosen inputs supply)
  | cross => dsimp only; cases concatSchema op.describe (inputs.zip names) [] <;> rfl
  | join t keys => dsimp only; cases concatSchema op.describe (inputs.zip names) [] <;> rfl
  | forEach items => dsimp only; cases forEachSchema op.describe items inputs <;> rfl
  | _ => rfl

/-! ## Identities do not matter -/

theorem qualify_outline (operator input : String) : ∀ (s : List Field) (taken : List String),
    qualify operator input (Schema.outline s) taken =
      (qualify operator input s taken).map fun r => (Schema.outline r.1, r.2)
  | [], taken => rfl
  | f :: rest, taken => by
    have ih := qualify_outline operator input rest
    rw [Schema.outline_cons]
    unfold qualify
    rw [Field.name_outline]
    cases hn : f.name with
    | none =>
      dsimp only
      rw [ih]
      cases qualify operator input rest taken <;> rfl
    | some n =>
      dsimp only
      split
      · rfl
      · rw [ih]
        cases qualify operator input rest ((input ++ "::" ++ n) :: taken) with
        | error e => rfl
        | ok r => simp [Except.map, Field.outline_eq]

theorem concatSchema_outlines (operator : String) : ∀ (inputs : Inputs)
    (names : List (Option String)) (taken : List String),
    concatSchema operator ((outlines inputs).zip names) taken =
      (concatSchema operator (inputs.zip names) taken).map (·.map Schema.outline)
  | [], _, _ => rfl
  | _ :: _, [], _ => by rw [List.zip_nil_right, List.zip_nil_right]; rfl
  | none :: inputs, name :: names, taken => rfl
  | some s :: inputs, none :: names, taken => by
    rw [outlines_cons, List.zip_cons_cons, List.zip_cons_cons, Option.map_some]
    unfold concatSchema
    rw [concatSchema_outlines operator inputs names taken]
    cases concatSchema operator (inputs.zip names) taken with
    | error e => rfl
    | ok t => cases t <;> simp [Except.map, Schema.outline_append]
  | some s :: inputs, some input :: names, taken => by
    rw [outlines_cons, List.zip_cons_cons, List.zip_cons_cons, Option.map_some]
    unfold concatSchema
    rw [qualify_outline]
    cases qualify operator input s taken with
    | error e => rfl
    | ok r =>
      simp only [Except.map, Pass.except_ok_bind]
      rw [concatSchema_outlines operator inputs names r.2]
      cases concatSchema operator (inputs.zip names) r.2 with
      | error e => rfl
      | ok t => cases t <;> simp [Except.map, Schema.outline_append]

/-- Generated columns without identities, each with whether it comes from flattening. -/
def outlineFields (fields : List (Field × Bool)) : List (Field × Bool) :=
  fields.map fun f => (f.1.outline, f.2)

theorem outlineFields_append (as bs : List (Field × Bool)) :
    outlineFields (as ++ bs) = outlineFields as ++ outlineFields bs := List.map_append

theorem map_fst_outlineFields (fields : List (Field × Bool)) :
    (outlineFields fields).map Prod.fst = Schema.outline (fields.map Prod.fst) := by
  rw [Schema.outline_eq_map, outlineFields, List.map_map, List.map_map]
  rfl

theorem itemFields_outlines (operator : String) (inputs : Inputs) (item : Item) :
    (itemFields operator (outlines inputs) item).map (·.map outlineFields) =
      (itemFields operator inputs item).map (·.map outlineFields) := by
  unfold itemFields
  rw [schemaOf?_outlines, outlines, Formula.type_strips]
  cases item.formula.asColumn? with
  | some c =>
    cases Expr.schemaOf? inputs 0 with
    | none => rfl
    | some s =>
      simp only [Option.map_some, Schema.outline_eq_map s, List.getElem?_map, List.length_map]
      cases s[c.2]? with
      | none => rfl
      | some f =>
        simp only [Option.map_some, Field.type_outline, Field.nested_outline, Field.name_outline]
        split
        · cases f.nested with
          | none => rfl
          | some inner =>
            simp only [Except.map, Option.map_some, outlineFields, Schema.outline_eq_map,
              List.map_map]
            congr 3
            funext g
            simp [Field.outline_eq, Schema.map_outline_outline, -Option.map_map]
        · simp [Except.map, outlineFields, Field.outline_eq, Schema.map_outline_outline,
            -Option.map_map]
  | none =>
    dsimp only
    rw [Option.isNone_map]
    split
    · rfl
    split
    · rfl
    · simp [Except.map, outlineFields, Field.outline_eq]

/-- Items that generate the same columns, but for identities, do so together. -/
theorem allItemFields_congr {operator : String} {inputs inputs' : Inputs} {items items' : List Item}
    (h : List.Forall₂ (fun item item' =>
        (itemFields operator inputs item).map (·.map outlineFields) =
      (itemFields operator inputs' item').map (·.map outlineFields)) items items') :
    (allItemFields operator inputs items).map (·.map outlineFields) =
      (allItemFields operator inputs' items').map (·.map outlineFields) := by
  induction h with
  | nil => rfl
  | cons hitem _ ih =>
    unfold allItemFields
    refine Pass.except_bind_map_congr hitem fun fields fields' hfields => ?_
    cases fields with
    | none =>
      obtain rfl : fields' = none := by simpa using hfields.symm
      rfl
    | some fields =>
      obtain ⟨fields', rfl, heq⟩ := Option.map_eq_some_iff.mp hfields.symm
      refine Pass.except_bind_map_congr ih fun others others' hothers => ?_
      cases others with
      | none =>
        obtain rfl : others' = none := by simpa using hothers.symm
        rfl
      | some others =>
        obtain ⟨others', rfl, heq'⟩ := Option.map_eq_some_iff.mp hothers.symm
        simp [Except.map, outlineFields_append, heq, heq']

theorem checkNames_outlineFields (operator : String) : ∀ (fields : List (Field × Bool))
    (seen : List (String × Bool)),
    checkNames operator (outlineFields fields) seen = checkNames operator fields seen
  | [], _ => rfl
  | (f, flattened) :: rest, seen => by
    have ih := checkNames_outlineFields operator rest
    change checkNames operator ((f.outline, flattened) :: outlineFields rest) seen = _
    unfold checkNames
    simp only [Field.name_outline, ih]

/-- Names are checked alike on columns that are the same but for identities. -/
theorem forEachSchema_congr {operator : String} {inputs inputs' : Inputs} {items items' : List Item}
    (h : (allItemFields operator inputs items).map (·.map outlineFields) =
      (allItemFields operator inputs' items').map (·.map outlineFields)) :
    (forEachSchema operator items inputs).map (·.map Schema.outline) =
      (forEachSchema operator items' inputs').map (·.map Schema.outline) := by
  unfold forEachSchema
  refine Pass.except_bind_map_congr h fun fields fields' hfields => ?_
  cases fields with
  | none =>
    obtain rfl : fields' = none := by simpa using hfields.symm
    rfl
  | some fields =>
    obtain ⟨fields', rfl, heq⟩ := Option.map_eq_some_iff.mp hfields.symm
    dsimp only
    rw [← checkNames_outlineFields, ← heq, checkNames_outlineFields]
    cases checkNames operator fields' [] with
    | error e => rfl
    | ok u =>
      simp only [Pass.except_ok_bind, Pass.except_pure, Except.map, Option.map_some,
        ← map_fst_outlineFields, heq]

theorem forEachSchema_outlines (operator : String) (items : List Item) (inputs : Inputs) :
    (forEachSchema operator items (outlines inputs)).map (·.map Schema.outline) =
      (forEachSchema operator items inputs).map (·.map Schema.outline) :=
  forEachSchema_congr (allItemFields_congr (List.forall₂_same.mpr fun item _ =>
    itemFields_outlines operator inputs item))

/-- The outline of the output depends on the outlines of the inputs alone. -/
theorem outline?_outlines (op : Operator) (inputs : Inputs) (names : List (Option String)) :
    op.outline? (outlines inputs) names = op.outline? inputs names := by
  have hconcat : (concatSchema op.describe ((outlines inputs).zip names) []).map
        (·.map Schema.outline) =
      (concatSchema op.describe (inputs.zip names) []).map (·.map Schema.outline) := by
    rw [concatSchema_outlines]
    cases concatSchema op.describe (inputs.zip names) [] with
    | error e => rfl
    | ok t => simp only [Except.map, Schema.map_outline_outline]
  unfold outline?
  cases op.operation with
  | union chosen =>
    dsimp only
    rw [allKnown?_outlines]
    cases allKnown? inputs with
    | none => rfl
    | some known =>
      simp only [Option.map_some, Option.bind_some, mergeAll?_outline, Schema.map_outline_outline]
  | cross => exact hconcat
  | join t keys => exact hconcat
  | forEach items => exact forEachSchema_outlines op.describe items inputs
  | load l => rfl
  | _ => simp only [schemaOf?_outlines, Schema.map_outline_outline]

/-- Only joins and products look at the names of their inputs. -/
theorem outline?_congr_names {op : Operator} {inputs : Inputs} {names names' : List (Option String)}
    (h : op.type = .join ∨ op.type = .cross → names' = names) :
    op.outline? inputs names' = op.outline? inputs names := by
  unfold outline?
  unfold type at h
  cases ho : op.operation with
  | join t keys => rw [h (.inl (by rw [ho]; rfl))]
  | cross => rw [h (.inr (by rw [ho]; rfl))]
  | _ => rfl

@[simp] theorem outline?_core (op : Operator) (inputs : Inputs) (names : List (Option String)) :
    op.core.outline? inputs names = op.outline? inputs names := by
  unfold outline?
  rw [operation_core, describe_core]
  cases op.operation <;> rfl

/-- The outline is one. -/
theorem map_outline_outline? (op : Operator) (inputs : Inputs) (names : List (Option String)) :
    (op.outline? inputs names).map (·.map Schema.outline) = op.outline? inputs names := by
  unfold outline?
  cases op.operation with
  | cross =>
    dsimp only
    cases concatSchema op.describe (inputs.zip names) [] <;>
      simp only [Except.map, Schema.map_outline_outline]
  | join t keys =>
    dsimp only
    cases concatSchema op.describe (inputs.zip names) [] <;>
      simp only [Except.map, Schema.map_outline_outline]
  | forEach items =>
    dsimp only
    cases forEachSchema op.describe items inputs <;>
      simp only [Except.map, Schema.map_outline_outline]
  | _ => simp only [Except.map, Schema.map_outline_outline]

end Operator

namespace Plan

open Dataflow.Graph

variable {p q r : Plan} {x z : NodeId} {op : Operator} {o : NodeId → Option Schema} {e : Error}

/-! ## Deriving all schemas -/

theorem forM_schema_spec : ∀ {l : List NodeId} {p : Plan}, p.Ready →
    (∀ x ∈ l, p.graph.contains x = true) → match l.forM (fun x => discard (schema x)) p with
      | .ok _ q => Extends p q ∧ ∀ x ∈ l, (q.memoOf x).isSome
      | .error e _ => Stuck p e
  | [], p, hp, _ => ⟨.refl hp.coherent, by simp⟩
  | x :: l, p, hp, hl => by
    obtain ⟨hx, hl⟩ := List.forall_mem_cons.mp hl
    rw [Pass.forM_cons]
    cases h : schema x p with
    | error e q =>
      rw [Pass.bind_eq_error.mpr (.inl (Pass.discard_eq_error.mpr h))]
      exact ⟨q, schema_eq_error hp.coherent hp.wellFormed hp.acyclic hx h⟩
    | ok s q =>
      obtain ⟨hq, hmemo⟩ := schema_eq_ok hp.coherent h
      rw [Pass.bind_of_ok (Pass.discard_eq_ok (u := ()).mpr ⟨s, h⟩)]
      have ih := forM_schema_spec (l := l) (hp.extends hq) fun y hy => by
        rw [hq.alike.contains]
        exact hl y hy
      cases hrest : l.forM (fun x => discard (schema x)) q with
      | ok u r =>
        rw [hrest] at ih
        exact ⟨hq.trans ih.1, List.forall_mem_cons.mpr
          ⟨ih.1.isSome (by rw [hmemo]; rfl), ih.2⟩⟩
      | error e r =>
        rw [hrest] at ih
        obtain ⟨t, ht, hblocked⟩ := ih
        exact ⟨t, hq.trans ht, hblocked⟩

/-- Deriving all schemas does so, or fails where a schema cannot be derived. -/
theorem resolveSchemas_spec (hp : p.Ready) : match resolveSchemas p with
    | .ok _ q => Extends p q ∧ ∀ z, p.graph.contains z = true → (q.memoOf z).isSome
    | .error e _ => Stuck p e := by
  obtain ⟨order, ho⟩ := exists_topologicalOrder hp.wellFormed hp.acyclic
  obtain ⟨-, hmem, -⟩ := topologicalOrder_spec hp.wellFormed ho
  unfold resolveSchemas
  rw [Pass.bind_of_ok Pass.get_apply,
    Pass.bind_of_ok (ofResult_eq_ok.mpr ⟨orError_eq_ok.mpr ho, rfl⟩)]
  have h := forM_schema_spec (l := order) hp fun z hz => (hmem z).mp hz
  cases hrun : order.forM (fun id => discard (schema id)) p with
  | ok u q =>
    rw [hrun] at h
    exact ⟨h.1, fun z hz => h.2 z ((hmem z).mpr hz)⟩
  | error e q =>
    rw [hrun] at h
    exact h

/-! ## Outlines of a plan -/

/-- The outlines satisfy the equations of the plan. -/
def Outlined (p : Plan) (o : NodeId → Option Schema) : Prop :=
  ∀ z op, p.core? z = some op →
    op.outline? ((p.dataInputs z).map o) ((p.dataInputs z).map p.nameOf) = .ok (o z)

namespace Outlined

theorem alike (ho : p.Outlined o) (h : Alike p q) : q.Outlined o := by
  intro z op hop
  rw [h.core?] at hop
  have hnames : q.nameOf = p.nameOf := funext fun _ => h.nameOf
  rw [h.dataInputs, hnames]
  exact ho z op hop

/-- Where the inputs have the outlines, deriving an operator comes out as its equation says. -/
theorem derive (ho : p.Outlined o) (hop : p.operator? z = some op)
    (hinputs : ∀ x ∈ p.dataInputs z, ∃ t, p.memoOf x = some t ∧ t.map Schema.outline = o x)
    (supply : UidSupply) :
    (op.deriveSchema ((p.dataInputs z).map fun x => (p.memoOf x).join)
      ((p.dataInputs z).map p.nameOf) supply).map (fun r => r.1.map Schema.outline) =
        .ok (o z) := by
  have heq : (p.dataInputs z).map o =
      Operator.outlines ((p.dataInputs z).map fun x => (p.memoOf x).join) := by
    rw [Operator.outlines, Operator.strips, List.map_map]
    refine List.map_congr_left fun x hx => ?_
    obtain ⟨t, ht, hto⟩ := hinputs x hx
    rw [Function.comp_apply, ht, ← hto]
    rfl
  have hcore : p.core? z = some op.core := by rw [core?, hop]; rfl
  rw [Operator.outline_deriveSchema, ← Operator.outline?_outlines, ← heq, ← Operator.outline?_core]
  exact ho z op.core hcore

/-- Derived schemas have the outlines. -/
theorem memo (ho : p.Outlined o) (hp : p.Ready) : ∀ {z : NodeId} {t : Option Schema},
    p.memoOf z = some t → t.map Schema.outline = o z := by
  obtain ⟨rank, hrank⟩ := hp.acyclic
  intro z
  induction h : rank z using Nat.strongRecOn generalizing z with
  | _ n ih =>
    intro t ht
    obtain ⟨op, hop, hmemo⟩ := Option.bind_eq_some_iff.mp ht
    obtain ⟨hknown, hderive⟩ := hp.coherent z op t hop hmemo
    have hmade := ho.derive hop (fun x hx => by
      obtain ⟨tx, htx⟩ := Option.isSome_iff_exists.mp (hknown x hx)
      exact ⟨tx, htx, ih (rank x)
        (h ▸ rank_of_mem_dataInputs hp.wellFormed hrank hx) rfl htx⟩) default
    rw [hderive default] at hmade
    exact Except.ok.inj hmade

/-- No schema is missing because it cannot be derived. -/
theorem not_stuck (ho : p.Outlined o) (hp : p.Ready) : ¬Stuck p e := by
  rintro ⟨q, hq, z, op, hop, hknown, hfail⟩
  have hqo := ho.alike hq.alike
  have hmade := hqo.derive hop (fun x hx => by
    obtain ⟨t, ht⟩ := Option.isSome_iff_exists.mp (hknown x hx)
    exact ⟨t, ht, hqo.memo (hp.extends hq) ht⟩) q.uids
  rw [hfail] at hmade
  simp [Except.map] at hmade

/-- All schemas can be derived. -/
theorem resolve (ho : p.Outlined o) (hp : p.Ready) : ∃ q, resolveSchemas p = .ok () q := by
  have h := resolveSchemas_spec hp
  cases hr : resolveSchemas p with
  | ok u q => exact ⟨q, rfl⟩
  | error e q =>
    rw [hr] at h
    exact absurd h (ho.not_stuck hp)

end Outlined

/-- Derived schemas have outlines that satisfy the equations of the plan. -/
theorem exists_outlined (hp : p.Ready) (h : ∃ q, resolveSchemas p = .ok () q) :
    ∃ o, p.Outlined o := by
  obtain ⟨q, hq⟩ := h
  have hspec := resolveSchemas_spec hp
  rw [hq] at hspec
  obtain ⟨hext, hknown⟩ := hspec
  refine ⟨fun z => ((q.memoOf z).join).map Schema.outline,
    Outlined.alike (p := q) ?_ hext.alike.symm⟩
  intro z op hop
  obtain ⟨op', hop', rfl⟩ := Option.map_eq_some_iff.mp hop
  obtain ⟨t, ht⟩ := Option.isSome_iff_exists.mp
    (hknown z (by rw [← hext.alike.contains]; exact contains_of_operator? hop'))
  have hmemo : op'.memo = some t := by rwa [memoOf, hop'] at ht
  obtain ⟨-, hderive⟩ := hext.coherent z op' t hop' hmemo
  have hmade := Operator.outline_deriveSchema op'
    ((q.dataInputs z).map fun x => (q.memoOf x).join) ((q.dataInputs z).map q.nameOf) default
  rw [hderive default, ← Operator.outline?_outlines] at hmade
  rw [Operator.outline?_core]
  dsimp only
  rw [ht]
  refine Eq.trans ?_ hmade.symm
  rw [Operator.outlines, Operator.strips, List.map_map]
  rfl

/-- The schemas of a plan can be derived exactly if its equations for outlines can be satisfied. -/
theorem exists_outlined_iff (hp : p.Ready) :
    (∃ o, p.Outlined o) ↔ ∃ q, resolveSchemas p = .ok () q :=
  ⟨fun ⟨_, ho⟩ => ho.resolve hp, exists_outlined hp⟩

end Plan

end Dataflow

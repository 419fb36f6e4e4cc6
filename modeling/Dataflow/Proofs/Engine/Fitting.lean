import Dataflow.Proofs.Engine.Agreement

/-!
# Rows that fit a schema

A row fits a schema if it has one cell for each column, and a tuple or bag in a cell has rows that
fit the inner columns, as far as those are known. Nothing is asked of other cells, nor of their
types: null may stand in any column, and what is no tuple or bag has no inner rows.

Every operation takes fitting rows to rows that fit the layout of its output (`fits_meaning`), if
flattening meets tuples and bags exactly where the derivation of schemas expects them
(`Item.spreadsAsTyped`).
-/

namespace Dataflow

open Dataflow.Expr (Inputs)

/-! ## Fitting -/

mutual

/-- Whether the rows inside a value fit the inner columns. -/
def Field.fits : Field → Value → Bool
  | ⟨_, _, inner, _, _⟩, v => Schema.innerFits inner v

def Schema.innerFits : Option (List Field) → Value → Bool
  | some s, .tuple items => Schema.fits s items
  | some s, .bag rows => rows.all fun row => Schema.fits s row
  | _, _ => true

/-- Whether a row has a fitting cell for each column and no others. -/
def Schema.fits : List Field → Row → Bool
  | [], [] => true
  | f :: s, v :: row => f.fits v && Schema.fits s row
  | _, _ => false

end

section Schemas

variable {f g : Field} {s t : Schema} {v : Value} {row : Row}

theorem Field.fits_eq (f : Field) (v : Value) : f.fits v = Schema.innerFits f.nested v := by
  cases f
  rfl

theorem Field.fits_of_unknown (h : f.nested = none) : f.fits v = true := by
  rw [fits_eq, h]
  rfl

@[simp] theorem Field.fits_null (f : Field) : f.fits .null = true := by
  rw [fits_eq]
  cases f.nested <;> rfl

namespace Schema

theorem fits_iff : ∀ {s : Schema} {row : Row},
    fits s row = true ↔ List.Forall₂ (fun f v => Field.fits f v = true) s row
  | [], [] => iff_of_true rfl .nil
  | [], _ :: _ => iff_of_false Bool.false_ne_true nofun
  | _ :: _, [] => iff_of_false Bool.false_ne_true nofun
  | f :: s, v :: row => by
    rw [List.forall₂_cons, ← fits_iff]
    exact Bool.and_eq_true_iff

theorem fits_cons {f : Field} : fits (f :: s) (v :: row) = true ↔
    f.fits v = true ∧ fits s row = true := by
  rw [fits, Bool.and_eq_true]

/-- A row that fits is as wide as the schema. -/
theorem length_of_fits (h : fits s row = true) : row.length = s.length :=
  (fits_iff.mp h).length_eq.symm

theorem fits_append {row' : Row} (h : fits s row = true) (h' : fits t row' = true) :
    fits (s ++ t) (row ++ row') = true :=
  fits_iff.mpr (List.rel_append (fits_iff.mp h) (fits_iff.mp h'))

/-- Nulls fit if there are enough of them. -/
theorem fits_nulls : ∀ s : Schema, fits s (Relation.nulls s.length) = true
  | [] => rfl
  | f :: s => fits_cons.mpr ⟨f.fits_null, fits_nulls s⟩

theorem fits_getElem? {i : Nat} (h : fits s row = true) (hf : s[i]? = some f) :
    ∃ v, row[i]? = some v ∧ f.fits v = true := by
  have hlt := (List.getElem?_eq_some_iff.mp hf).1
  have hi : i < row.length := by rwa [length_of_fits h]
  refine ⟨row[i], List.getElem?_eq_getElem hi, ?_⟩
  have := (fits_iff.mp h).get hlt hi
  rwa [List.get_eq_getElem, (List.getElem?_eq_some_iff.mp hf).2] at this

end Schema

/-! ### Layouts and merged schemas -/

mutual

/-- Names and identities do not matter. -/
theorem Field.fits_blank : ∀ (f : Field) (v : Value), f.blank.fits v = f.fits v
  | ⟨_, _, inner, _, _⟩, v => Schema.innerFits_blank inner v

theorem Schema.innerFits_blank : ∀ (inner : Option (List Field)) (v : Value),
    Schema.innerFits (Schema.nestedStrip (fun _ => none) inner) v = Schema.innerFits inner v
  | none, _ => rfl
  | some s, v => by
    have hs := Schema.fits_blank s
    cases v with
    | tuple items => exact hs items
    | bag rows => exact congrArg rows.all (funext hs)
    | _ => rfl

theorem Schema.fits_blank : ∀ (s : List Field) (row : Row),
    Schema.fits (Schema.blank s) row = Schema.fits s row
  | [], [] => rfl
  | [], _ :: _ => rfl
  | _ :: _, [] => rfl
  | f :: s, v :: row => by
    rw [Schema.blank_cons, Schema.fits, Schema.fits, Field.fits_blank f v, Schema.fits_blank s row]

end

mutual

/-- Values of both columns fit the merged one. -/
theorem Field.fits_merge? : ∀ {a b c : Field}, a.merge? b = some c → ∀ v,
    (a.fits v = true → c.fits v = true) ∧ (b.fits v = true → c.fits v = true)
  | ⟨n, t, inner, u, ps⟩, b, c, h => by
    intro v
    unfold Field.merge? at h
    obtain ⟨type, -, h⟩ := Option.bind_eq_some_iff.mp h
    obtain ⟨merged, hmerged, h⟩ := Option.bind_eq_some_iff.mp h
    obtain rfl : (⟨n, type, merged, u, []⟩ : Field) = c := Option.some.inj h
    rw [Field.fits_eq b v]
    exact Schema.innerFits_merge? hmerged v

theorem Schema.innerFits_merge? : ∀ {a b c : Option (List Field)},
    Schema.nestedMerge? a b = some c → ∀ v,
      (Schema.innerFits a v = true → Schema.innerFits c v = true) ∧
        (Schema.innerFits b v = true → Schema.innerFits c v = true)
  | some s, some t, c, h => by
    intro v
    obtain ⟨merged, hmerged, rfl⟩ := Option.map_eq_some_iff.mp h
    have hrow := Schema.fits_merge? hmerged
    cases v with
    | tuple items => exact hrow items
    | bag rows =>
      simp only [Schema.innerFits, List.all_eq_true]
      exact ⟨fun h row hmem => (hrow row).1 (h row hmem),
        fun h row hmem => (hrow row).2 (h row hmem)⟩
    | _ => exact ⟨fun _ => rfl, fun _ => rfl⟩
  | none, _, c, h => by
    intro v
    obtain rfl : none = c := by simpa [Schema.nestedMerge?] using h
    exact ⟨fun _ => rfl, fun _ => rfl⟩
  | some s, none, c, h => by
    intro v
    obtain rfl : none = c := by simpa [Schema.nestedMerge?] using h
    exact ⟨fun _ => rfl, fun _ => rfl⟩

theorem Schema.fits_merge? : ∀ {a b c : List Field}, Schema.merge? a b = some c → ∀ row,
    (Schema.fits a row = true → Schema.fits c row = true) ∧
      (Schema.fits b row = true → Schema.fits c row = true)
  | [], [], c, h => by
    intro row
    obtain rfl : [] = c := by simpa [Schema.merge?] using h
    exact ⟨id, id⟩
  | f :: s, g :: t, c, h => by
    intro row
    unfold Schema.merge? at h
    obtain ⟨merged, hmerged, h⟩ := Option.bind_eq_some_iff.mp h
    obtain ⟨rest, hrest, h⟩ := Option.bind_eq_some_iff.mp h
    obtain rfl : merged :: rest = c := Option.some.inj h
    cases row with
    | nil => exact ⟨fun h => by simp [Schema.fits] at h, fun h => by simp [Schema.fits] at h⟩
    | cons v row =>
      have hv := Field.fits_merge? hmerged v
      have hrow := Schema.fits_merge? hrest row
      simp only [Schema.fits_cons]
      exact ⟨fun h => ⟨hv.1 h.1, hrow.1 h.2⟩, fun h => ⟨hv.2 h.1, hrow.2 h.2⟩⟩
  | [], _ :: _, _, h => by simp [Schema.merge?] at h
  | _ :: _, [], _, h => by simp [Schema.merge?] at h

end

/-- Rows of every input fit the schema that is merged from all. -/
theorem Operator.fits_mergeAll? {known : List Schema} {merged : Schema}
    (h : mergeAll? known = some merged) (hs : s ∈ known) (hrow : Schema.fits s row = true) :
    Schema.fits merged row = true := by
  -- one more schema keeps what fits so far, and lets in what fits it
  have hfold : ∀ (rest : List Schema) (first : Schema),
      rest.foldlM (fun merged s => Schema.merge? merged s) first = some merged →
        ∀ s ∈ first :: rest, Schema.fits s row = true → Schema.fits merged row = true := by
    intro rest
    induction rest with
    | nil =>
      intro first h s hs hrow
      obtain rfl : first = merged := by simpa using h
      rwa [List.mem_singleton.mp hs] at hrow
    | cons t rest ih =>
      intro first h s hs hrow
      rw [List.foldlM_cons] at h
      obtain ⟨m, hm, hrest⟩ := Option.bind_eq_some_iff.mp h
      have hfits := Schema.fits_merge? hm row
      rcases List.mem_cons.mp hs with rfl | hs
      · exact ih m hrest m (by simp) (hfits.1 hrow)
      rcases List.mem_cons.mp hs with rfl | hs
      · exact ih m hrest m (by simp) (hfits.2 hrow)
      · exact ih m hrest s (by simp [hs]) hrow
  match known, h with
  | first :: rest, h => exact hfold rest first h s hs hrow

end Schemas

/-! ## Flattening as typed -/

/-- Whether a value has rows inside. -/
def Value.isNested : Value → Bool
  | .tuple _ | .bag _ => true
  | _ => false

/-- The type by which the derivation of schemas decides what flattening the item gives. -/
def Item.type (inputs : Inputs) (item : Item) : DataType :=
  match item.formula.asColumn? with
  | some (_, column) =>
    ((Expr.schemaOf? inputs 0 >>= (·[column]?)).map Field.type).getD .byteArray
  | none => item.formula.type inputs

/-- Whether flattening the item on a row meets a tuple or bag exactly if the type of the item is one
of these. -/
def Item.spreadsAsTyped (inputs : Inputs) (row : Row) (item : Item) : Bool :=
  !item.flatten || match item.formula.value [row] with
    | .ok v => v.isNested == (item.type inputs).isNested
    | .error _ => true

/-- Whether all flattening that an operation does on the rows is as typed. -/
def Operation.spreadsAsTyped (inputs : Inputs) (rel : Relation) : Operation → Bool
  | .forEach items => rel.all fun row => items.all fun item => item.spreadsAsTyped inputs row
  | _ => true

theorem Item.type_blanks (inputs : Inputs) (item : Item) :
    item.type (Operator.blanks inputs) = item.type inputs := by
  unfold type
  cases item.formula.asColumn? with
  | none => exact Formula.type_strips _ inputs
  | some c =>
    simp only [Operator.schemaOf?_blanks]
    cases Expr.schemaOf? inputs 0 with
    | none => rfl
    | some s => simp [Schema.blank_eq_map, Option.map_map, Function.comp_def]

theorem Operation.spreadsAsTyped_blanks (inputs : Inputs) (rel : Relation) (o : Operation) :
    o.spreadsAsTyped (Operator.blanks inputs) rel = o.spreadsAsTyped inputs rel := by
  cases o <;> simp only [spreadsAsTyped, Item.spreadsAsTyped, Item.type_blanks]

/-! ## Operations -/

/-- The rows fit the layout, if there is one. -/
def Relation.Fits (layout : Option Schema) (rel : Relation) : Prop :=
  ∀ s, layout = some s → ∀ row ∈ rel, Schema.fits s row = true

/-- The rows fit the layout of the operator, if it can be told. -/
def Meaning.Fits (m : Meaning) : Prop := m.rows.Fits m.layout

namespace Relation

variable {rel : Relation} {s t : Schema} {row : Row}

/-- All rows fit the schema. -/
abbrev AllFit (s : Schema) (rel : Relation) : Prop := ∀ row ∈ rel, Schema.fits s row = true

/-! ### Generated rows -/

/-- Flattening a tuple or bag adds its rows. -/
theorem extend_fits_nested {partials : Relation} {v : Value} {f : Field} (hp : AllFit s partials)
    (hv : v.isNested = true) (hf : f.fits v = true) (hinner : f.nested = some t) :
    AllFit (s ++ t) (extend true v partials) := by
  rw [Field.fits_eq, hinner] at hf
  cases v with
  | tuple items =>
    rintro _ h
    obtain ⟨p, hmem, rfl⟩ := List.mem_map.mp h
    exact Schema.fits_append (hp p hmem) hf
  | bag rows =>
    rintro _ h
    obtain ⟨p, hmem, h⟩ := List.mem_flatMap.mp h
    obtain ⟨row, hrow, rfl⟩ := List.mem_map.mp h
    exact Schema.fits_append (hp p hmem) (List.all_eq_true.mp hf row hrow)
  | _ => simp [Value.isNested] at hv

/-- Anything else adds one cell. -/
theorem extend_fits_cell {partials : Relation} {flatten : Bool} {v : Value} {f : Field}
    (hp : AllFit s partials) (hv : flatten = true → v.isNested = false) (hf : f.fits v = true) :
    AllFit (s ++ [f]) (extend flatten v partials) := by
  have hone : extend flatten v partials = partials.map (· ++ [v]) := by
    cases flatten with
    | false => cases v <;> rfl
    | true =>
      cases v with
      | tuple items => simp [Value.isNested] at hv
      | bag rows => simp [Value.isNested] at hv
      | _ => rfl
  rw [hone]
  intro _ h
  obtain ⟨p, hmem, rfl⟩ := List.mem_map.mp h
  exact Schema.fits_append (hp p hmem) (Schema.fits_cons.mpr ⟨hf, rfl⟩)

/-- A plain column is null or a cell that fits the column. -/
theorem fits_cell {input column : Nat} {f : Field} (hrow : Schema.fits s row = true)
    (hf : s[column]? = some f) : f.fits (Formula.cell [row] input column) = true := by
  obtain ⟨v, hv, hfits⟩ := Schema.fits_getElem? hrow hf
  cases input with
  | zero => simpa [Formula.cell, hv] using hfits
  | succ input => simp [Formula.cell]

/-- What an item adds fits the columns that are derived for it. -/
theorem extend_fits {inputs : Inputs} {item : Item} {partials : Relation} {v : Value}
    (hlayout : Operation.itemLayout? inputs item = some (some t))
    (hinput : ∀ c, Expr.schemaOf? inputs 0 = some c → Schema.fits c row = true)
    (hspread : item.spreadsAsTyped inputs row = true) (hv : item.formula.value [row] = .ok v)
    (hp : AllFit s partials) : AllFit (s ++ t) (extend item.flatten v partials) := by
  have htyped : item.flatten = true → v.isNested = (item.type inputs).isNested := by
    intro hflat
    simpa [Item.spreadsAsTyped, hv, hflat] using hspread
  unfold Operation.itemLayout? at hlayout
  unfold Item.type at htyped
  cases hc : item.formula.asColumn? with
  | some c =>
    obtain ⟨input, column⟩ := c
    simp only [hc] at hlayout htyped
    cases hs : Expr.schemaOf? inputs 0 with
    | none => rw [hs] at hlayout; simp at hlayout
    | some c =>
      simp only [hs] at hlayout htyped
      obtain ⟨f, hf, hlayout⟩ := Option.map_eq_some_iff.mp hlayout
      simp only [Option.bind_eq_bind, Option.bind_some, hf, Option.map_some,
        Option.getD_some] at htyped
      obtain rfl : Formula.cell [row] input column = v :=
        Except.ok.inj ((Formula.value_of_asColumn? hc).symm.trans hv)
      have hfits : f.fits (Formula.cell [row] input column) = true := fits_cell (hinput c hs) hf
      split at hlayout
      · rename_i hnested
        obtain ⟨hflat, hnested⟩ := Bool.and_eq_true_iff.mp hnested
        rw [hflat]
        refine extend_fits_nested (f := f.blank) hp ((htyped hflat).trans hnested) ?_ ?_
        · rwa [Field.fits_blank]
        · rwa [Field.nested_blank]
      · rename_i hplain
        obtain rfl : [f.blank] = t := Option.some.inj hlayout
        refine extend_fits_cell hp (fun hflat => ?_) (by rwa [Field.fits_blank])
        rw [htyped hflat]
        simpa [hflat] using hplain
  | none =>
    simp only [hc] at hlayout htyped
    split at hlayout
    · simp at hlayout
    split at hlayout
    · simp at hlayout
    · rename_i hplain
      obtain rfl := Option.some.inj (Option.some.inj hlayout)
      refine extend_fits_cell hp (fun hflat => ?_) (Field.fits_of_unknown rfl)
      rw [htyped hflat]
      simpa [hflat] using hplain

theorem generateRow_fits {inputs : Inputs}
    (hinput : ∀ c, Expr.schemaOf? inputs 0 = some c → Schema.fits c row = true) :
    ∀ {items : List Item} {s t : Schema} {partials made : Relation},
      Operation.itemsLayout? inputs items = some (some t) →
      (∀ item ∈ items, item.spreadsAsTyped inputs row = true) → AllFit s partials →
      generateRow row items partials = .ok made → AllFit (s ++ t) made
  | [], s, t, partials, made, hlayout, _, hp, h => by
    obtain rfl : [] = t := by simpa [Operation.itemsLayout?] using hlayout
    obtain rfl : partials = made := Except.ok.inj h
    rwa [List.append_nil]
  | item :: items, s, t, partials, made, hlayout, hspread, hp, h => by
    obtain ⟨hitem, hspread⟩ := List.forall_mem_cons.mp hspread
    unfold generateRow at h
    obtain ⟨v, hv, h⟩ := Pass.except_bind_eq_ok.mp h
    unfold Operation.itemsLayout? at hlayout
    split at hlayout
    · simp at hlayout
    · simp at hlayout
    · rename_i fields hfields
      obtain ⟨rest?, hrest, hlayout⟩ := Option.map_eq_some_iff.mp hlayout
      obtain ⟨rest, rfl, rfl⟩ := Option.map_eq_some_iff.mp hlayout
      have hnext := extend_fits hfields hinput hitem hv hp
      rw [← List.append_assoc]
      exact generateRow_fits hinput hrest hspread hnext h

/-! ### Products and joins -/

/-- What is put together from values that fit part of the schemas each fits all of them. -/
theorem foldl_fits {α β : Type} {S : Schema → α → Prop} {T : Schema → β → Prop}
    {step : α → β → α} (hstep : ∀ s t a b, S s a → T t b → S (s ++ t) (step a b))
    {known : List Schema} {bs : List β} (h : List.Forall₂ T known bs) :
    ∀ {s : Schema} {a : α}, S s a → S (s ++ known.flatten) (bs.foldl step a) := by
  induction h with
  | nil =>
    intro s a ha
    simpa using ha
  | cons hb _ ih =>
    intro s a ha
    rw [List.foldl_cons, List.flatten_cons, ← List.append_assoc]
    exact ih (hstep _ _ _ _ ha hb)

theorem cross_fits {known : List Schema} {rels : List Relation}
    (h : List.Forall₂ AllFit known rels) : AllFit known.flatten (cross rels) := by
  have hstart : AllFit [] [[]] := by
    intro row hrow
    rw [List.mem_singleton.mp hrow]
    rfl
  refine foldl_fits (S := AllFit) (fun s t acc rel hacc hrel row hrow => ?_) h hstart
  obtain ⟨l, hl, hrow⟩ := List.mem_flatMap.mp hrow
  obtain ⟨r, hr, rfl⟩ := List.mem_map.mp hrow
  exact Schema.fits_append (hacc l hl) (hrel r hr)

/-- All rows fit the schema, whatever their keys. -/
abbrev KeyedFit (s : Schema) (keyed : List Keyed) : Prop := AllFit s (keyed.map Prod.snd)

theorem KeyedFit.fits {keyed : List Keyed} {x : Keyed} (h : KeyedFit s keyed) (hx : x ∈ keyed) :
    Schema.fits s x.2 = true :=
  h x.2 (List.mem_map_of_mem hx)

theorem innerJoin_fits {known : List Schema} {keyed : List (List Keyed)}
    (h : List.Forall₂ KeyedFit known keyed) : AllFit known.flatten (innerJoin keyed) := by
  cases h with
  | nil =>
    intro row hrow
    simp [innerJoin] at hrow
  | cons hfirst hrest =>
    refine foldl_fits (S := KeyedFit) (fun s t acc rel hacc hrel row hrow => ?_) hrest hfirst
    obtain ⟨x, hx, rfl⟩ := List.mem_map.mp hrow
    obtain ⟨l, hl, hx⟩ := List.mem_flatMap.mp hx
    obtain ⟨r, hr, rfl⟩ := List.mem_map.mp hx
    exact Schema.fits_append (hacc.fits hl) (hrel.fits (List.mem_of_mem_filter hr))

theorem outerJoin_fits {keepLeft keepRight : Bool} {left right : List Keyed}
    (hleft : KeyedFit s left) (hright : KeyedFit t right) :
    AllFit (s ++ t) (outerJoin keepLeft keepRight left right s.length t.length) := by
  intro row hrow
  unfold outerJoin at hrow
  rcases List.mem_append.mp hrow with hrow | hrow
  · obtain ⟨l, hl, hrow⟩ := List.mem_flatMap.mp hrow
    dsimp only at hrow
    split at hrow
    · obtain ⟨r, hr, rfl⟩ := List.mem_map.mp hrow
      exact Schema.fits_append (hleft.fits hl) (hright.fits (List.mem_of_mem_filter hr))
    · split at hrow
      · rw [List.mem_singleton.mp hrow]
        exact Schema.fits_append (hleft.fits hl) (Schema.fits_nulls t)
      · simp at hrow
  · split at hrow
    · obtain ⟨r, hr, rfl⟩ := List.mem_map.mp hrow
      exact Schema.fits_append (Schema.fits_nulls s) (hright.fits (List.mem_of_mem_filter hr))
    · simp at hrow

/-- Rows stay in their places when they get their keys. -/
theorem map_snd_of_keyed {keysOf : Row → RunResult (List Value)} :
    ∀ {rel : Relation} {keyed : List Keyed},
      (rel.mapM fun row => do return (← keysOf row, row)) = .ok keyed → keyed.map Prod.snd = rel
  | [], keyed, h => by
    obtain rfl : [] = keyed := Except.ok.inj h
    rfl
  | row :: rel, keyed, h => by
    rw [List.mapM_cons] at h
    obtain ⟨first, hfirst, h⟩ := Pass.except_bind_eq_ok.mp h
    obtain ⟨others, hothers, h⟩ := Pass.except_bind_eq_ok.mp h
    obtain ⟨values, -, hfirst⟩ := Pass.except_bind_eq_ok.mp hfirst
    obtain rfl := Except.ok.inj h
    obtain rfl := Except.ok.inj hfirst
    rw [List.map_cons, map_snd_of_keyed hothers]

theorem allWithKeys_fits (m : Nat) {known : List Schema} {rels : List Relation}
    (h : List.Forall₂ AllFit known rels) : ∀ {keys : List (List Formula)} {k : Nat}
      {keyed : List (List Keyed)}, keys.length = rels.length →
      ((keys.zip rels).zipIdx k).mapM (fun ((ks, rel), i) => withKeys ks i m rel) = .ok keyed →
      List.Forall₂ KeyedFit known keyed := by
  induction h with
  | nil =>
    intro keys k keyed hlen hkeyed
    rw [List.length_eq_zero_iff.mp hlen] at hkeyed
    obtain rfl : [] = keyed := Except.ok.inj hkeyed
    exact .nil
  | @cons s rel known rels hrel _ ih =>
    intro keys k keyed hlen hkeyed
    match keys, hlen with
    | ks :: keys, hlen =>
      rw [List.zip_cons_cons, List.zipIdx_cons, List.mapM_cons] at hkeyed
      obtain ⟨first, hfirst, hkeyed⟩ := Pass.except_bind_eq_ok.mp hkeyed
      obtain ⟨others, hothers, hkeyed⟩ := Pass.except_bind_eq_ok.mp hkeyed
      obtain rfl := Except.ok.inj hkeyed
      refine .cons ?_ (ih (by simpa using hlen) hothers)
      rw [KeyedFit, map_snd_of_keyed hfirst]
      exact hrel

/-- Null rows are as wide as the schema of the side they stand for. -/
theorem join_fits {type : JoinType} {keys : List (List Formula)} {known : List Schema}
    {rels : List Relation} {made : Relation} (h : List.Forall₂ AllFit known rels)
    (hjoin : join type keys rels (known.map fun s => some s.length) = .ok made) :
    AllFit known.flatten made := by
  unfold join at hjoin
  split at hjoin
  · simp at hjoin
  rename_i hlen
  obtain ⟨keyed, hkeyed, hjoin⟩ := Pass.except_bind_eq_ok.mp hjoin
  have hfits := allWithKeys_fits rels.length h (by simpa using hlen) hkeyed
  split at hjoin
  · obtain rfl := Except.ok.inj hjoin
    exact innerJoin_fits hfits
  · cases hfits with
    | cons hleft hrest =>
      cases hrest with
      | cons hright hnil =>
        cases hnil
        obtain rfl := Except.ok.inj hjoin
        rw [List.flatten_cons, List.flatten_cons, List.flatten_nil, List.append_nil]
        exact outerJoin_fits hleft hright
  · simp at hjoin

/-! ### Rows that pass through -/

theorem mem_sort {keys : List SortKey} {made : Relation} (h : sort keys rel = .ok made)
    (hrow : row ∈ made) : row ∈ rel := by
  unfold sort at h
  obtain ⟨keyed, hkeyed, h⟩ := Pass.except_bind_eq_ok.mp h
  obtain rfl := Except.ok.inj h
  obtain ⟨x, hx, rfl⟩ := List.mem_map.mp hrow
  rw [← map_snd_of_keyed hkeyed]
  exact List.mem_map_of_mem (Sorting.mem_of_mem_sort hx)

/-- Restricting maps changes no tuples and bags. -/
theorem fits_restrictMap (f : Field) (keys : List String) (v : Value) :
    f.fits (restrictMap keys v) = f.fits v := by
  rw [Field.fits_eq, Field.fits_eq]
  cases v with
  | map entries => cases f.nested <;> rfl
  | _ => rfl

theorem fits_restrictCell {keys : List String} : ∀ {s : Schema} {row : Row} {i : Nat},
    Schema.fits s row = true → Schema.fits s (row.modify i (restrictMap keys)) = true
  | [], [], i, h => by simpa using h
  | f :: s, v :: row, 0, h => by
    obtain ⟨hv, hrow⟩ := Schema.fits_cons.mp h
    exact Schema.fits_cons.mpr ⟨(fits_restrictMap f keys v).trans hv, hrow⟩
  | f :: s, v :: row, i + 1, h => by
    obtain ⟨hv, hrow⟩ := Schema.fits_cons.mp h
    exact Schema.fits_cons.mpr ⟨hv, fits_restrictCell hrow⟩

theorem fits_restrictRow (table : KeyTable) : ∀ {row : Row}, Schema.fits s row = true →
    Schema.fits s (restrictRow table row) = true := by
  induction table with
  | nil => exact id
  | cons x table ih => exact fun h => ih (fits_restrictCell h)

end Relation

/-! ### All operations -/

/-- Whether all records that a load with a declared schema finds pass a test for that schema. -/
def Operation.loadsAll (test : Schema → Row → Bool) (s : Storage) : Operation → Bool
  | .load l =>
    match l.declared, s.get? l.location with
    | some schema, some records => records.all (test schema)
    | _, _ => true
  | _ => true

theorem load_fits {s : Storage} {l : Load} {schema : Schema} {made : Relation}
    (h : (Operation.load l).loadsAll Schema.fits s = true) (hl : l.declared = some schema)
    (hload : Engine.load l s = .ok made) : Relation.AllFit schema made := by
  unfold Engine.load at hload
  obtain ⟨handle, hpoint, hload⟩ := Pass.except_bind_eq_ok.mp hload
  simp only [hl] at hload
  obtain ⟨_, -, hload⟩ := Pass.except_bind_eq_ok.mp hload
  obtain ⟨records, hread, hload⟩ := Pass.except_bind_eq_ok.mp hload
  have hrecords : s.get? l.location = some records := by
    unfold Storage.Handle.pointAt at hpoint
    split at hpoint
    · simp at hpoint
    obtain rfl := Except.ok.inj hpoint
    unfold Storage.Handle.read at hread
    obtain ⟨location, hcurrent, hread⟩ := Pass.except_bind_eq_ok.mp hread
    obtain rfl : l.location = location := Except.ok.inj hcurrent
    split at hread
    · rename_i found hfound
      obtain rfl := Except.ok.inj hread
      exact hfound
    · simp at hread
  simp only [Operation.loadsAll, hl, hrecords, List.all_eq_true] at h
  obtain rfl := Except.ok.inj hload
  cases l.requiredKeys with
  | none => exact h
  | some table =>
    intro row hrow
    obtain ⟨record, hrecord, rfl⟩ := List.mem_map.mp hrow
    exact Relation.fits_restrictRow table (h record hrecord)

namespace Operation

variable {o : Operation} {ms : List Meaning} {s : Storage}

/-- The rows of inputs whose layouts are all known. -/
theorem forall₂_of_allKnown? {known : List Schema} (hin : ∀ m ∈ ms, m.Fits)
    (h : Operator.allKnown? (ms.map Meaning.layout) = some known) :
    List.Forall₂ Relation.AllFit known (ms.map Meaning.rows) := by
  have hlayouts := Operator.allKnown?_eq_some.mp h
  clear h
  induction ms generalizing known with
  | nil =>
    obtain rfl : known = [] := by simpa using hlayouts.symm
    exact .nil
  | cons m ms ih =>
    obtain ⟨hm, hin⟩ := List.forall_mem_cons.mp hin
    match known, hlayouts with
    | c :: known, hlayouts =>
      obtain ⟨hc, hlayouts⟩ := List.cons.inj hlayouts
      exact .cons (hm c hc) (ih hin hlayouts)

theorem fits_inputRows (hin : ∀ m ∈ ms, m.Fits) :
    (inputRows ms).Fits (Expr.schemaOf? (ms.map Meaning.layout) 0) := by
  cases ms with
  | nil =>
    intro c hc
    simp [Expr.schemaOf?] at hc
  | cons m ms =>
    intro c hc
    exact hin m (by simp) c (by simpa [Expr.schemaOf?] using hc)

/-- Rows of the only input fit the layout that is passed on. -/
theorem fits_passed {rel : Relation} (hin : ∀ m ∈ ms, m.Fits)
    (hrel : ∀ row ∈ rel, row ∈ inputRows ms) :
    rel.Fits ((Expr.schemaOf? (ms.map Meaning.layout) 0).map Schema.blank) := by
  intro c hc row hrow
  obtain ⟨c', hc', rfl⟩ := Option.map_eq_some_iff.mp hc
  rw [Schema.fits_blank]
  exact fits_inputRows hin c' hc' row (hrel row hrow)

/-- An operation takes rows that fit to rows that fit. -/
theorem fits_meaning (hin : ∀ m ∈ ms, m.Fits) (hload : o.loadsAll Schema.fits s = true)
    (hspread : (o.meaning s ms).layout.isSome →
      o.spreadsAsTyped (ms.map Meaning.layout) (inputRows ms) = true) :
    (o.meaning s ms).Fits := by
  cases o with
  | load l =>
    intro c hc row hrow
    obtain ⟨schema, hl, rfl⟩ := Option.map_eq_some_iff.mp hc
    rw [Schema.fits_blank]
    cases hmade : Engine.load l s with
    | error e => simp [meaning, rows, hmade, Except.toOption] at hrow
    | ok made =>
      simp only [meaning, rows, hmade, Except.toOption, Option.getD_some] at hrow
      exact load_fits hload hl hmade row hrow
  | forEach items =>
    intro c hc row hrow
    have hspread := hspread (by rw [hc]; rfl)
    have hlayout := Option.join_eq_some_iff.mp hc
    obtain ⟨input, hinput, hrow⟩ := List.mem_flatMap.mp hrow
    have hitems := List.all_eq_true.mp (List.all_eq_true.mp hspread input hinput)
    cases hmade : Relation.generateRow input items [[]] with
    | error e => simp [Relation.generated, hmade, Except.toOption] at hrow
    | ok made =>
      simp only [Relation.generated, hmade, Except.toOption, Option.getD_some] at hrow
      have hstart : Relation.AllFit [] [[]] := by simp [Relation.AllFit, Schema.fits]
      exact Relation.generateRow_fits (fun c hc => fits_inputRows hin c hc input hinput) hlayout
        hitems hstart hmade row hrow
  | join t keys =>
    intro c hc row hrow
    obtain ⟨known, hknown, rfl⟩ := Option.map_eq_some_iff.mp hc
    have hwidths : ms.map Meaning.width? = known.map fun s => some s.length := by
      have := congrArg (List.map (Option.map List.length)) (Operator.allKnown?_eq_some.mp hknown)
      rwa [List.map_map, List.map_map] at this
    rw [Schema.fits_blank]
    cases hmade : Relation.join t keys (ms.map Meaning.rows) (ms.map Meaning.width?) with
    | error e => simp [meaning, rows, hmade, Except.toOption] at hrow
    | ok made =>
      simp only [meaning, rows, hmade, Except.toOption, Option.getD_some] at hrow
      rw [hwidths] at hmade
      exact Relation.join_fits (forall₂_of_allKnown? hin hknown) hmade row hrow
  | cross =>
    intro c hc
    obtain ⟨known, hknown, rfl⟩ := Option.map_eq_some_iff.mp hc
    intro row hrow
    rw [Schema.fits_blank]
    exact Relation.cross_fits (forall₂_of_allKnown? hin hknown) row hrow
  | union chosen =>
    intro c hc row hrow
    obtain ⟨merged, hmerged, rfl⟩ := Option.map_eq_some_iff.mp hc
    obtain ⟨known, hknown, hmerged⟩ := Option.bind_eq_some_iff.mp hmerged
    obtain ⟨rel, hrel, hrow⟩ := List.mem_flatten.mp hrow
    obtain ⟨m, hm, rfl⟩ := List.mem_map.mp hrel
    have hlayout : m.layout ∈ known.map some := by
      rw [← Operator.allKnown?_eq_some.mp hknown]
      exact List.mem_map_of_mem hm
    obtain ⟨c, hc, hmc⟩ := List.mem_map.mp hlayout
    rw [Schema.fits_blank]
    exact Operator.fits_mergeAll? hmerged hc (hin m hm c hmc.symm row hrow)
  | filter f => exact fits_passed hin fun row hrow => List.mem_of_mem_filter hrow
  | splitOutput f => exact fits_passed hin fun row hrow => List.mem_of_mem_filter hrow
  | distinct => exact fits_passed hin fun row hrow => Relation.mem_distinctFrom hrow
  | limit n => exact fits_passed hin fun row hrow => List.mem_of_mem_take hrow
  | store location => exact fits_passed hin fun row hrow => hrow
  | split => exact fits_passed hin fun row hrow => hrow
  | sort keys =>
    refine fits_passed hin fun row hrow => ?_
    cases hmade : Relation.sort keys (inputRows ms) with
    | error e => simp [meaning, rows, hmade, Except.toOption] at hrow
    | ok made =>
      simp only [meaning, rows, hmade, Except.toOption, Option.getD_some] at hrow
      exact Relation.mem_sort hmade hrow

end Operation

end Dataflow

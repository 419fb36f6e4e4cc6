import Dataflow.Proofs.Formula.Value

/-!
# Types of formulas and types of their values

The type of a formula is computed from the schemas of the inputs alone. It is the type of every
value of the formula that is not null (`value_ofType`), if nothing is looked up in a map and no
arithmetic is done on a long and a float: such a pair is computed as a double, while the type is
float (`not_value_ofType`). Nothing else goes wrong, even above such a pair: a value that is not of
the type of its formula is a double, and the type is float.
-/

namespace Dataflow

open Dataflow.Graph
open Dataflow.Expr (Inputs)

/-! ## Values of a type -/

namespace Value

/-- Null is of every type, any other value only of its own. -/
def OfType (t : DataType) (v : Value) : Prop := v.type? = none ∨ v.type? = some t

instance (t : DataType) (v : Value) : Decidable (v.OfType t) :=
  inferInstanceAs (Decidable (_ ∨ _))

variable {t : DataType}

theorem OfType.null : OfType t .null := .inl rfl

theorem OfType.boolean (b : Bool) : OfType .boolean (.boolean b) := .inr rfl

end Value

/-! ## Arithmetic on types -/

namespace DataType

/-- The type that arithmetic has by the types of its operands. -/
def combined (s t : DataType) : DataType :=
  match s.merge? t with
  | some t => if t.isNumeric then t else .double
  | none => .double

/-- The types of the numbers with which can be computed. -/
def computable : List DataType := [.int, .long, .float, .double]

/-- The type of what arithmetic gives for values of these types. -/
def computed (s t : DataType) : DataType :=
  if s = .int ∧ t = .int then .int
  else if (s = .int ∨ s = .long) ∧ (t = .int ∨ t = .long) then .long
  else if s = .long ∨ s = .double ∨ t = .long ∨ t = .double then .double
  else .float

/-- A long beside a float. -/
def Clash (s t : DataType) : Prop := s = .long ∧ t = .float ∨ s = .float ∧ t = .long

instance (s t : DataType) : Decidable (Clash s t) := inferInstanceAs (Decidable (_ ∨ _))

/-- The two agree but for a long beside a float. -/
theorem computed_eq_combined : ∀ s ∈ computable, ∀ t ∈ computable,
    computed s t = combined s t ∨
      Clash s t ∧ computed s t = .double ∧ combined s t = .float := by
  decide

/-- A double in the place of a float gives a double, and the type stays a double or a float. -/
theorem computed_double : ∀ t ∈ computable,
    computed .double t = .double ∧ computed t .double = .double ∧
    (combined .float t = .double ∨ combined .float t = .float) ∧
    (combined t .float = .double ∨ combined t .float = .float) := by
  decide

end DataType

/-- Whether the term looks something up in a map. -/
def Term.isLookup : Term → Bool
  | .unary (.lookup _) => true
  | _ => false

/-- A column of an input, if its schema is known and has it. -/
def Expr.fieldOf? (inputs : Inputs) (input i : Nat) : Option Field :=
  schemaOf? inputs input >>= (·[i]?)

namespace Formula

open DataType (combined computed computable Clash)
open Value (OfType)
open Dataflow.Expr (fieldOf?)

variable {f : Formula} {inputs : Inputs} {rows : Rows} {a b v : Value} {s t : DataType} {x : NodeId}

/-! ## Operations on values -/

theorem negateValue_type? (h : negateValue a = .ok v) : v.type? = a.type? := by
  cases a <;> simp [negateValue, undefined] at h <;> subst h <;> rfl

theorem ofType_ofTruth (t : Option Bool) : OfType .boolean (ofTruth t) := by
  cases t with
  | none => exact .null
  | some b => exact .boolean b

theorem compareValues_ofType (c : Comparison) : OfType .boolean (compareValues c a b) := by
  unfold compareValues
  split
  · exact .null
  · exact .boolean _

theorem connective_ofType {decisive : Bool} {left right : RunResult Value}
    (h : connective decisive left right = .ok v) : OfType .boolean v := by
  unfold connective at h
  obtain ⟨_, -, h⟩ := Pass.except_bind_eq_ok.mp h
  obtain ⟨l, -, h⟩ := Pass.except_bind_eq_ok.mp h
  split at h
  · obtain rfl := Except.ok.inj h
    exact .boolean _
  obtain ⟨_, -, h⟩ := Pass.except_bind_eq_ok.mp h
  obtain ⟨r, -, h⟩ := Pass.except_bind_eq_ok.mp h
  split at h
  · obtain rfl := Except.ok.inj h
    exact .boolean _
  obtain rfl := Except.ok.inj h
  split
  · exact .boolean _
  · exact .null

theorem isSome_asInt? (a : Value) :
    a.asInt?.isSome = true ↔ a.type? = some .int ∨ a.type? = some .long := by
  cases a <;> simp [Value.asInt?, Value.type?]

theorem type?_of_asDouble? {y : Double} (h : a.asDouble? = some y) :
    ∃ s ∈ computable, a.type? = some s := by
  cases a <;> simp [Value.asDouble?] at h
  · exact ⟨.int, by decide, rfl⟩
  · exact ⟨.long, by decide, rfl⟩
  · exact ⟨.float, by decide, rfl⟩
  · exact ⟨.double, by decide, rfl⟩

theorem isWide_iff : isWide a = true ↔ a.type? = some .long ∨ a.type? = some .double := by
  cases a <;> simp [isWide, Value.type?]

theorem type?_getD_null {γ : Type} {r : Option γ} {mk : γ → Value}
    (hmk : ∀ c, (mk c).type? = some t) (h : (r.map mk).getD .null = v) :
    v.type? = none ∨ v.type? = some t := by
  subst h
  cases r with
  | none => exact .inl rfl
  | some c => exact .inr (hmk c)

/-- Arithmetic gives null, or both operands are numbers and their types tell that of the result. -/
theorem arithmeticValue_type? {op : Arithmetic} (h : arithmeticValue op a b = .ok v) :
    v.type? = none ∨ ∃ s ∈ computable, ∃ t ∈ computable,
      a.type? = some s ∧ b.type? = some t ∧ v.type? = some (computed s t) := by
  unfold arithmeticValue at h
  split at h
  · obtain rfl := Except.ok.inj h
    exact .inl rfl
  split at h
  · refine (type?_getD_null (t := .int) (fun _ => rfl) (Except.ok.inj h)).imp_right fun hv => ?_
    exact ⟨.int, by decide, .int, by decide, rfl, rfl, hv⟩
  rename_i hint
  split at h
  · -- two whole numbers, one of which is wide
    rename_i x y hx hy
    refine (type?_getD_null (t := .long) (fun _ => rfl) (Except.ok.inj h)).imp_right fun hv => ?_
    have hnot : ¬(a.type? = some .int ∧ b.type? = some .int) := by
      rintro ⟨ha, hb⟩
      cases a <;> simp [Value.type?] at ha
      cases b <;> simp [Value.type?] at hb
      exact hint _ _ rfl rfl
    rcases (isSome_asInt? a).mp (by simp [hx]) with ha | ha <;>
      rcases (isSome_asInt? b).mp (by simp [hy]) with hb | hb
    · exact absurd ⟨ha, hb⟩ hnot
    all_goals exact ⟨_, by decide, _, by decide, ha, hb, hv⟩
  rename_i hwhole
  split at h
  · -- at least one of the numbers is not whole
    rename_i x y hx hy
    obtain ⟨s, hs, ha⟩ := type?_of_asDouble? hx
    obtain ⟨t, ht, hb⟩ := type?_of_asDouble? hy
    have hnot : ¬((s = .int ∨ s = .long) ∧ (t = .int ∨ t = .long)) := by
      rintro ⟨h₁, h₂⟩
      obtain ⟨i, hi⟩ := Option.isSome_iff_exists.mp
        ((isSome_asInt? a).mpr (by simpa [ha] using h₁))
      obtain ⟨j, hj⟩ := Option.isSome_iff_exists.mp
        ((isSome_asInt? b).mpr (by simpa [hb] using h₂))
      exact hwhole i j hi hj
    have hcomputed : computed s t = if isWide a || isWide b then .double else .float := by
      have hint : ¬(s = .int ∧ t = .int) := fun h => hnot ⟨.inl h.1, .inl h.2⟩
      rw [computed, if_neg hint, if_neg hnot]
      simp only [Bool.or_eq_true, isWide_iff, ha, hb, Option.some.injEq, or_assoc]
    refine (type?_getD_null (t := computed s t) (fun c => ?_) (Except.ok.inj h)).imp_right
      fun hv => ⟨s, hs, t, ht, ha, hb, hv⟩
    rw [hcomputed]
    split <;> rfl
  · simp [undefined] at h
  · simp [undefined] at h

/-! ## Formulas -/

/-- The type of a node of a formula. -/
def typeAt (f : Formula) (inputs : Inputs) (id : NodeId) : DataType :=
  f.compute (fun _ => Unfolding.typeNode inputs default) (fun _ => .byteArray) id

theorem type_of_root {root : NodeId} (h : f.root = .ok root) :
    f.type inputs = f.typeAt inputs root := by
  unfold type
  rw [h]
  rfl

/-- No term of the formula looks something up in a map. -/
def LookupFree (f : Formula) : Prop := ∀ p ∈ f.graph.toList, p.2.isLookup = false

/-- The schemas know every column that the formula reads. -/
def ReadsKnown (f : Formula) (inputs : Inputs) : Prop :=
  ∀ p ∈ f.columns, (fieldOf? inputs p.1 p.2).isSome = true

instance : Decidable f.LookupFree :=
  inferInstanceAs (Decidable (∀ p ∈ f.graph.toList, p.2.isLookup = false))

instance : Decidable (f.ReadsKnown inputs) :=
  inferInstanceAs (Decidable (∀ p ∈ f.columns, (fieldOf? inputs p.1 p.2).isSome = true))

/-- The cells of each known column are of its type. -/
def CellsTyped (inputs : Inputs) (rows : Rows) : Prop :=
  ∀ input i field, fieldOf? inputs input i = some field → OfType field.type (cell rows input i)

/-- Somewhere arithmetic is done on a long and a float. -/
def HasClash (f : Formula) (inputs : Inputs) : Prop :=
  ∃ id op x y, f.graph.content? id = some (.binary (.arithmetic op)) ∧
    f.graph.successors id = [x, y] ∧ Clash (f.typeAt inputs x) (f.typeAt inputs y)

/-- The value is of the type, or it is a double in the place of a float, above a clash. -/
def Foretold (f : Formula) (inputs : Inputs) (t : DataType) (v : Value) : Prop :=
  OfType t v ∨ f.HasClash inputs ∧ t = .float ∧ v.type? = some .double

/-- What arithmetic makes of foretold operands is foretold, if a clash of their types is one of the
formula. -/
theorem Foretold.arithmetic {op : Arithmetic} (ha : f.Foretold inputs s a)
    (hb : f.Foretold inputs t b) (hclash : Clash s t → f.HasClash inputs)
    (h : arithmeticValue op a b = .ok v) :
    f.Foretold inputs (combined s t) v := by
  rcases arithmeticValue_type? h with hv | ⟨s', hs', t', ht', has, hbt, hv⟩
  · exact .inl (.inl hv)
  unfold Foretold OfType at ha hb ⊢
  rw [has] at ha
  rw [hbt] at hb
  rw [hv]
  simp only [reduceCtorEq, Option.some.injEq, false_or] at ha hb ⊢
  rcases ha with rfl | ⟨hclash', rfl, rfl⟩
  · rcases hb with rfl | ⟨hclash', rfl, rfl⟩
    · rcases DataType.computed_eq_combined s' hs' t' ht' with heq | ⟨hst, hcomputed, hcombined⟩
      · exact .inl heq
      · exact .inr ⟨hclash hst, hcombined, hcomputed⟩
    · obtain ⟨-, hcomputed, -, hcombined | hcombined⟩ := DataType.computed_double s' hs'
      · exact .inl (hcomputed.trans hcombined.symm)
      · exact .inr ⟨hclash', hcombined, hcomputed⟩
  · have ht : combined .float t = .double ∨ combined .float t = .float := by
      rcases hb with rfl | ⟨-, rfl, -⟩
      · exact (DataType.computed_double t' ht').2.2.1
      · exact .inr (by decide)
    rcases ht with hcombined | hcombined
    · exact .inl ((DataType.computed_double t' ht').1.trans hcombined.symm)
    · exact .inr ⟨hclash', hcombined, (DataType.computed_double t' ht').1⟩

theorem operandValue_map {g : NodeId → RunResult Value} {xs : List NodeId} {i : Nat}
    (h : operandValue (xs.map g) i = .ok v) : ∃ y, xs[i]? = some y ∧ g y = .ok v := by
  unfold operandValue at h
  rw [List.getElem?_map] at h
  cases hy : xs[i]? with
  | none => simp [hy] at h
  | some y => exact ⟨y, rfl, by simpa [hy] using h⟩

/-- The equation of a node. -/
theorem typeAt_eq (hf : f.Sound) (hv : f.Valid) {term : Term}
    (ht : f.graph.content? x = some term) :
    f.typeAt inputs x =
      Unfolding.typeNode inputs default term ((f.graph.successors x).map (f.typeAt inputs)) :=
  compute_eq hf.wellFormed hv.acyclic ht

/-- The value of each node is foretold by its type, operands first. -/
theorem foretold_valueAt (hf : f.Sound) (hv : f.Valid) (hfree : f.LookupFree)
    (hknown : f.ReadsKnown inputs) (hcells : CellsTyped inputs rows) :
    ∀ x, f.graph.contains x = true → ∀ v, f.valueAt rows x = .ok v →
      f.Foretold inputs (f.typeAt inputs x) v := by
  refine hv.acyclic.outputs_first hf.wellFormed fun x term ht ih v h => ?_
  rw [valueAt_eq hf hv ht] at h
  rw [typeAt_eq hf hv ht]
  -- an operand that has a value has a type that foretells it
  have hoperand : ∀ i w, operandValue ((f.graph.successors x).map (f.valueAt rows)) i = .ok w →
      f.Foretold inputs (((f.graph.successors x).map (f.typeAt inputs)).getD i .byteArray) w :=
    fun i w hw => by
      obtain ⟨y, hy, hw⟩ := operandValue_map hw
      have htype : ((f.graph.successors x).map (f.typeAt inputs)).getD i .byteArray =
          f.typeAt inputs y := by simp [List.getD, hy]
      rw [htype]
      exact ih y (List.mem_of_getElem? hy) w hw
  cases term with
  | const w =>
    obtain rfl := Except.ok.inj h
    refine .inl ?_
    show OfType (w.type?.getD .byteArray) w
    cases hw : w.type? with
    | none => exact .inl hw
    | some t => exact .inr hw
  | column input i name =>
    obtain rfl := Except.ok.inj h
    obtain ⟨field, hfield⟩ := Option.isSome_iff_exists.mp
      (hknown (input, i) ((mem_columns hf).mpr ⟨x, name, ht⟩))
    refine .inl ?_
    show OfType (((fieldOf? inputs input i).map Field.type).getD .byteArray) _
    rw [hfield]
    exact hcells input i field hfield
  | unary op =>
    cases op with
    | lookup key =>
      have := hfree _ (hf.wellFormed.mem_toList_iff.mpr ht)
      simp [Term.isLookup] at this
    | not =>
      obtain ⟨w, -, h⟩ := Pass.except_bind_eq_ok.mp h
      obtain ⟨b, -, h⟩ := Pass.except_bind_eq_ok.mp h
      obtain rfl := Except.ok.inj h
      exact .inl (ofType_ofTruth _)
    | isNull =>
      obtain ⟨w, -, h⟩ := Pass.except_bind_eq_ok.mp h
      obtain rfl := Except.ok.inj h
      exact .inl (.boolean _)
    | negate =>
      obtain ⟨w, hw, h⟩ := Pass.except_bind_eq_ok.mp h
      unfold Foretold OfType
      rw [negateValue_type? h]
      exact hoperand 0 w hw
  | binary op =>
    cases op with
    | and => exact .inl (connective_ofType h)
    | or => exact .inl (connective_ofType h)
    | compare c =>
      obtain ⟨w, -, h⟩ := Pass.except_bind_eq_ok.mp h
      obtain ⟨w', -, h⟩ := Pass.except_bind_eq_ok.mp h
      obtain rfl := Except.ok.inj h
      exact .inl (compareValues_ofType c)
    | arithmetic op =>
      obtain ⟨w, hw, h⟩ := Pass.except_bind_eq_ok.mp h
      obtain ⟨w', hw', h⟩ := Pass.except_bind_eq_ok.mp h
      refine (hoperand 0 w hw).arithmetic (hoperand 1 w' hw') (fun hclash => ?_) h
      obtain ⟨y, z, hyz⟩ := List.length_eq_two.mp (hv.arity x _ ht)
      rw [hyz] at hclash
      exact ⟨x, op, y, z, ht, hyz, hclash⟩

/-- The type of a formula that looks up nothing is the type of every value that it has on rows whose
cells are of the types of their columns, null apart. Where arithmetic meets a long and a float, the
value may be a double although the type is float, and nothing else. -/
theorem value_ofType (hf : f.Sound) (hvalid : f.validate = .ok ()) (hfree : f.LookupFree)
    (hknown : f.ReadsKnown inputs) (hcells : CellsTyped inputs rows) (h : f.value rows = .ok v) :
    OfType (f.type inputs) v ∨
      f.HasClash inputs ∧ f.type inputs = .float ∧ v.type? = some .double := by
  have hv := (validate_eq_ok hf).mp hvalid
  obtain ⟨root, hroot⟩ := hv.rooted
  rw [value_of_root hroot] at h
  rw [type_of_root hroot]
  exact foretold_valueAt hf hv hfree hknown hcells root (Valid.contains_root hroot hf) v h

/-- The sum of two columns of one input. -/
def columnSum : Formula :=
  (ofExpr (.binary (.arithmetic .add) (.column 0 0 none) (.column 0 1 none))).toOption.getD {}

/-- Two columns of the given types. -/
def pairOf (s t : DataType) : Inputs :=
  [some [{ name := "a", type := s }, { name := "b", type := t }]]

theorem fieldOf?_pairOf {input i : Nat} {field : Field}
    (h : fieldOf? (pairOf s t) input i = some field) :
    input = 0 ∧ (i = 0 ∧ field.type = s ∨ i = 1 ∧ field.type = t) := by
  rcases input with _ | input
  · rcases i with _ | _ | i
    · obtain rfl := Option.some.inj h
      exact ⟨rfl, .inl ⟨rfl, rfl⟩⟩
    · obtain rfl := Option.some.inj h
      exact ⟨rfl, .inr ⟨rfl, rfl⟩⟩
    · simp [fieldOf?, Expr.schemaOf?, pairOf] at h
  · simp [fieldOf?, Expr.schemaOf?, pairOf] at h

theorem cellsTyped_pairOf (ha : OfType s a) (hb : OfType t b) :
    CellsTyped (pairOf s t) [[a, b]] := by
  intro input i field hfield
  obtain ⟨rfl, ⟨rfl, rfl⟩ | ⟨rfl, rfl⟩⟩ := fieldOf?_pairOf hfield
  · exact ha
  · exact hb

theorem columnSum_ofType : ∃ v, columnSum.value [[.int 3, .double (.ofInt 4)]] = .ok v ∧
    v.type? = some (columnSum.type (pairOf .int .double)) := by
  have hsome : (columnSum.value [[.int 3, .double (.ofInt 4)]]).toOption.bind Value.type? =
    some .double := by decide +kernel
  cases hvalue : columnSum.value [[.int 3, .double (.ofInt 4)]] with
  | error e => simp [hvalue, Except.toOption] at hsome
  | ok v =>
    rw [hvalue] at hsome
    refine ⟨v, rfl, ?_⟩
    have hknown : columnSum.ReadsKnown (pairOf .int .double) := by decide +kernel
    rcases value_ofType ⟨by decide +kernel, by decide +kernel⟩ (by decide +kernel)
      (by decide +kernel) hknown (cellsTyped_pairOf (.inr rfl) (.inr rfl)) hvalue with
      (h | h) | ⟨-, h, -⟩
    · simp [h, Except.toOption] at hsome
    · exact h
    · exact absurd h (by decide +kernel)

/-- The sum of a long and a float is a double, although its type is float. -/
theorem not_value_ofType : ¬ ∀ (f : Formula) (inputs : Inputs) (rows : Rows) (v : Value), f.Sound →
    f.validate = .ok () → f.LookupFree → f.ReadsKnown inputs →
    (∀ input i field, fieldOf? inputs input i = some field → field.type ≠ .byteArray) →
    CellsTyped inputs rows → f.value rows = .ok v → OfType (f.type inputs) v := by
  intro h
  have hsome : (columnSum.value [[.long 1, .float (.ofInt 2)]]).toOption.bind Value.type? =
    some .double := by decide +kernel
  cases hvalue : columnSum.value [[.long 1, .float (.ofInt 2)]] with
  | error e => simp [hvalue, Except.toOption] at hsome
  | ok v =>
    rw [hvalue] at hsome
    have hsome : v.type? = some .double := hsome
    have htyped := h columnSum (pairOf .long .float) _ v ⟨by decide +kernel, by decide +kernel⟩
      (by decide +kernel) (by decide +kernel) (by decide +kernel) (fun input i field hfield => ?_)
      (cellsTyped_pairOf (.inr rfl) (.inr rfl)) hvalue
    · have htype : columnSum.type (pairOf .long .float) = .float := by decide +kernel
      rw [OfType, hsome, htype] at htyped
      simp at htyped
    · obtain ⟨-, ⟨-, htype⟩ | ⟨-, htype⟩⟩ := fieldOf?_pairOf hfield
      · simp [htype]
      · simp [htype]

end Formula

end Dataflow

import Dataflow.Proofs.Plan.Rederive
import Dataflow.Proofs.Plan.Unnamed
import Dataflow.Proofs.Rewrite.Filters

/-!
# Where rows come from, past the filters

Filters have the schema of their input, so that what schemas there are is a matter of the other
operators and of which of them is behind which, filters in between left out. That is the `Flow` of a
plan. A request for a schema can be followed on the flow alone (`Flow.ask`, `HasFlow.schema`): names
decide whether there is a schema at all, but neither its identities and types nor what identities
are taken for it. So two plans with the same flow, however differently their filters are placed,
have the same flow after the same requests, even if identities should repeat.
-/

namespace Dataflow

open Dataflow.Expr (Inputs)

/-! ## One operator -/

namespace Operator

variable {op : Operator} {inputs : Inputs} {names : List (Option String)}
  {supply supply' : UidSupply}
  {s : Option Schema} {o : Operation}

/-- The schema of an operator without its names, the operation with the identities it remembers, and
the identities that are left. -/
def bareDerive (op : Operator) (inputs : Inputs) (supply : UidSupply) :
    Option Schema × Operation × UidSupply :=
  match op.operation with
  | .load l => (l.declared.map Schema.unnamed, op.operation, supply)
  | .union chosen =>
    let (schema, uids, supply) := unionSchema chosen inputs supply
    (schema, .union uids, supply)
  | .cross | .join _ _ => ((allKnown? inputs).map List.flatten, op.operation, supply)
  | .forEach items =>
    let fields := (allItemFields op.describe inputs items).toOption.join
    (fields.map unnamedFields, op.operation, supply)
  | _ => (Expr.schemaOf? inputs 0, op.operation, supply)

/-- Where a schema can be derived at all, names do not matter otherwise. -/
theorem bareDerive_unnamed (hlen : names.length = inputs.length)
    (h : op.deriveSchema inputs names supply = .ok (s, o, supply')) :
    op.bareDerive (unnamed inputs) supply = (s.map Schema.unnamed, o, supply') := by
  unfold deriveSchema at h
  unfold bareDerive
  cases ho : op.operation with
  | load l =>
    rw [ho] at h
    obtain ⟨rfl, rfl, rfl⟩ : _ ∧ _ ∧ _ := by simpa using h
    rfl
  | union chosen =>
    rw [ho] at h
    obtain ⟨rfl, rfl, rfl⟩ : _ ∧ _ ∧ _ := by simpa using h
    dsimp only
    rw [unionSchema_unnamed]
  | cross =>
    rw [ho] at h
    obtain ⟨t, ht, h⟩ := Pass.except_bind_eq_ok.mp h
    obtain ⟨rfl, rfl, rfl⟩ : _ ∧ _ ∧ _ := by simpa using h
    rw [unnamed_concatSchema hlen ht]
  | join type keys =>
    rw [ho] at h
    obtain ⟨t, ht, h⟩ := Pass.except_bind_eq_ok.mp h
    obtain ⟨rfl, rfl, rfl⟩ : _ ∧ _ ∧ _ := by simpa using h
    rw [unnamed_concatSchema hlen ht]
  | forEach items =>
    rw [ho] at h
    obtain ⟨t, ht, h⟩ := Pass.except_bind_eq_ok.mp h
    obtain ⟨rfl, rfl, rfl⟩ : _ ∧ _ ∧ _ := by simpa using h
    have hitems := unnamed_forEachSchema ht
    obtain ⟨fields, hfields, heq⟩ := Pass.except_map_eq_ok.mp hitems
    dsimp only
    rw [hfields, ← heq]
    rfl
  | _ =>
    rw [ho] at h
    obtain ⟨rfl, rfl, rfl⟩ : _ ∧ _ ∧ _ := by simpa using h
    rw [schemaOf?_unnamed]

/-- Only unions take identities. -/
theorem bareDerive_of_ne_union (h : op.type ≠ .union) :
    (op.bareDerive inputs supply).2 = (op.operation, supply) := by
  unfold bareDerive
  unfold Operator.type at h
  split <;> simp_all [Operation.type]

/-- Once the identities are chosen, none are taken any more. -/
theorem bareDerive_again (h : op.bareDerive inputs supply = (s, o, supply')) (again : UidSupply) :
    Operator.bareDerive { op with operation := o } inputs again = (s, o, again) := by
  by_cases hunion : op.type = .union
  · obtain ⟨chosen, ho⟩ : ∃ chosen, op.operation = .union chosen := by
      unfold Operator.type at hunion
      cases ho : op.operation <;> simp_all [Operation.type]
    unfold bareDerive at h ⊢
    rw [ho] at h
    obtain ⟨hs, rfl, hsupply⟩ : _ ∧ _ ∧ _ := by simpa only [Prod.mk.injEq] using h
    dsimp only
    rw [Plan.unionSchema_again (s := s) (by rw [← hs]) again]
  · have hnone : (op.bareDerive inputs supply).2 = _ := bareDerive_of_ne_union hunion
    have hagain : (op.bareDerive inputs again).2 = _ := bareDerive_of_ne_union hunion
    rw [h] at hnone
    obtain rfl : o = op.operation := (Prod.mk.inj hnone).1
    have hs : (op.bareDerive inputs again).1 = (op.bareDerive inputs supply).1 := by
      unfold bareDerive
      unfold Operator.type at hunion
      split <;> simp_all [Operation.type]
    rw [h] at hs
    exact Prod.ext hs hagain

/-- The operation stays one of its type. -/
theorem type_bareDerive {supply : UidSupply} :
    (op.bareDerive inputs supply).2.1.type = op.type := by
  unfold bareDerive Operator.type
  split <;> simp_all [Operation.type]

end Operator

/-! ## Flows -/

/-- The operators that are not filters, with the operators that their rows come from past the
filters, and the identities that are left. -/
structure Flow where
  op : NodeId → Option Operator
  inputs : NodeId → List NodeId
  uids : UidSupply

namespace Flow

variable {W W' : Flow} {r x : NodeId} {n m : Nat} {s t : Option Schema} {o : Operation}
  {uids : UidSupply} {op : Operator} {K K' : NodeId → Option (Option Schema)}
  {rank : NodeId → Nat}

/-- The flow in which an operator remembers identities. -/
def note (W : Flow) (r : NodeId) (o : Operation) (uids : UidSupply) : Flow where
  op x := if x = r then (W.op r).map fun op => { op with operation := o } else W.op x
  inputs := W.inputs
  uids := uids

/-- Asks for schemas one after the other. -/
def askAll (ask : NodeId → Flow → Option Schema × Flow) :
    List NodeId → Flow → List (Option Schema) × Flow
  | [], W => ([], W)
  | x :: l, W =>
    let (s, W) := ask x W
    let (rest, W) := askAll ask l W
    (s :: rest, W)

/-- Asks for the schema of an operator, names left aside, down to so many levels. -/
def ask : Nat → NodeId → Flow → Option Schema × Flow
  | 0, _, W => (none, W)
  | n + 1, r, W =>
    let (schemas, W) := askAll (ask n) (W.inputs r) W
    match W.op r with
    | none => (none, W)
    | some op =>
      let (s, o, uids) := op.bareDerive schemas W.uids
      (s, W.note r o uids)

theorem op_note : (W.note r o uids).op x =
    if x = r then (W.op r).map fun op => { op with operation := o } else W.op x := rfl

theorem note_self (hop : W.op r = some op) : W.note r op.operation W.uids = W := by
  have hops : (W.note r op.operation W.uids).op = W.op := by
    funext x
    rw [op_note]
    split
    · rename_i hx
      rw [hx, hop]
      rfl
    · rfl
  exact congrArg (fun ops : NodeId → Option Operator => ({ W with op := ops } : Flow)) hops

theorem askAll_cons {ask : NodeId → Flow → Option Schema × Flow} {l : List NodeId} :
    askAll ask (x :: l) W =
      ((ask x W).1 :: (askAll ask l (ask x W).2).1, (askAll ask l (ask x W).2).2) := rfl

theorem ask_of_op (hop : (askAll (ask n) (W.inputs r) W).2.op r = some op) : ask (n + 1) r W =
    ((op.bareDerive (askAll (ask n) (W.inputs r) W).1 (askAll (ask n) (W.inputs r) W).2.uids).1,
      (askAll (ask n) (W.inputs r) W).2.note r
        (op.bareDerive (askAll (ask n) (W.inputs r) W).1 (askAll (ask n) (W.inputs r) W).2.uids).2.1
        (op.bareDerive (askAll (ask n) (W.inputs r) W).1
          (askAll (ask n) (W.inputs r) W).2.uids).2.2) := by
  rw [ask]
  simp only [hop]

/-! ### What requests leave alone -/

/-- Requests change what unions remember, and nothing else. -/
structure Like (W W' : Flow) : Prop where
  inputs : W'.inputs = W.inputs
  types : ∀ r, (W'.op r).map Operator.type = (W.op r).map Operator.type

namespace Like

theorem refl : Like W W := ⟨rfl, fun _ => rfl⟩

theorem trans {W'' : Flow} (h : Like W W') (h' : Like W' W'') : Like W W'' :=
  ⟨h'.inputs.trans h.inputs, fun r => (h'.types r).trans (h.types r)⟩

theorem isSome (h : Like W W') : (W'.op r).isSome = (W.op r).isSome := by
  rw [← Option.isSome_map (f := Operator.type), h.types, Option.isSome_map]

theorem note (hop : W.op r = some op) (ho : o.type = op.type) : Like W (W.note r o uids) := by
  refine ⟨rfl, fun x => ?_⟩
  rw [op_note]
  split
  · rename_i hx
    rw [hx, hop]
    exact congrArg some ho
  · rfl

theorem askAll {ask : NodeId → Flow → Option Schema × Flow} (h : ∀ x W, Like W (ask x W).2) :
    ∀ (l : List NodeId) (W : Flow), Like W (askAll ask l W).2 := by
  intro l
  induction l with
  | nil => exact fun _ => refl
  | cons x l ih => exact fun W => (h x W).trans (ih _)

theorem ask : ∀ (n : Nat) (r : NodeId) (W : Flow), Like W (ask n r W).2 := by
  intro n
  induction n with
  | zero => exact fun _ _ => refl
  | succ n ih =>
    intro r W
    have hall := askAll ih (W.inputs r) W
    cases hop : (Flow.askAll (Flow.ask n) (W.inputs r) W).2.op r with
    | none =>
      rw [Flow.ask]
      simp only [hop]
      exact hall
    | some op =>
      rw [ask_of_op hop]
      exact hall.trans (.note hop Operator.type_bareDerive)

end Like

/-! ### What is known -/

/-- Every operator ranks above those that its rows come from. -/
def Graded (W : Flow) (rank : NodeId → Nat) : Prop :=
  ∀ r, ∀ x ∈ W.inputs r, rank x < rank r ∧ (W.op x).isSome

theorem Graded.like (h : W.Graded rank) (hlike : Like W W') : W'.Graded rank := by
  intro r x hx
  rw [hlike.inputs] at hx
  rw [hlike.isSome]
  exact h r x hx

/-- Schemas of some operators, names left aside. -/
abbrev Table := NodeId → Option (Option Schema)

/-- One table has what the other one has. -/
def Table.Le (K K' : Table) : Prop := ∀ r t, K r = some t → K' r = some t

theorem Table.Le.refl {K : Table} : K.Le K := fun _ _ h => h

theorem Table.Le.trans {K K' K'' : Table} (h : K.Le K') (h' : K'.Le K'') : K.Le K'' :=
  fun r t ht => h' r t (h r t ht)

theorem Table.Le.isSome {K K' : Table} (h : K.Le K') (hr : (K r).isSome) : (K' r).isSome := by
  obtain ⟨t, ht⟩ := Option.isSome_iff_exists.mp hr
  rw [h r t ht]
  rfl

/-- The schemas of the table are those of the flow for good: the table has those of the inputs, too,
and no identities are taken any more. -/
def Holds (W : Flow) (K : Table) : Prop :=
  ∀ r t, K r = some t → ∃ op, W.op r = some op ∧ (∀ x ∈ W.inputs r, (K x).isSome) ∧
    ∀ uids, op.bareDerive ((W.inputs r).map fun x => (K x).join) uids = (t, op.operation, uids)

theorem holds_none : W.Holds fun _ => none := fun _ _ h => by cases h

/-- Requests for what is known. -/
theorem askAll_known {K : Table} {ask : NodeId → Flow → Option Schema × Flow} {l : List NodeId}
    (h : ∀ x ∈ l, ∃ t, K x = some t ∧ ask x W = (t, W)) :
    askAll ask l W = (l.map fun x => (K x).join, W) := by
  induction l with
  | nil => rfl
  | cons x l ih =>
    obtain ⟨⟨t, ht, hask⟩, hl⟩ := List.forall_mem_cons.mp h
    rw [askAll_cons, hask, ih hl, List.map_cons, ht]
    rfl

/-- A request for what is known has no effect. -/
theorem Holds.ask_known {K : Table} (h : W.Holds K) (hW : W.Graded rank) : ∀ {n : Nat} {r : NodeId}
    {t : Option Schema}, K r = some t → rank r < n → ask n r W = (t, W) := by
  intro n
  induction n with
  | zero => exact fun _ hn => absurd hn (Nat.not_lt_zero _)
  | succ n ih =>
    intro r t hr hn
    obtain ⟨op, hop, hin, hderive⟩ := h r t hr
    have hall : askAll (ask n) (W.inputs r) W = ((W.inputs r).map fun x => (K x).join, W) := by
      refine askAll_known fun x hx => ?_
      obtain ⟨u, hu⟩ := Option.isSome_iff_exists.mp (hin x hx)
      have := (hW r x hx).1
      exact ⟨u, hu, ih hu (by omega)⟩
    have hop' : (askAll (ask n) (W.inputs r) W).2.op r = some op := by rw [hall]; exact hop
    rw [ask_of_op hop', hall, hderive]
    simp only [note_self hop]

/-- Requests in turn make known what they ask for. -/
theorem Holds.askAll {ask : NodeId → Flow → Option Schema × Flow} : ∀ {l : List NodeId} {W : Flow}
    {K : Table}, W.Holds K → (∀ x ∈ l, ∀ W' K, Like W W' → W'.Holds K → Like W' (ask x W').2 ∧
      ∃ K', K.Le K' ∧ (ask x W').2.Holds K' ∧ K' x = some (ask x W').1) →
    ∃ K', K.Le K' ∧ (Flow.askAll ask l W).2.Holds K' ∧
      (Flow.askAll ask l W).1 = l.map (fun x => (K' x).join) ∧ ∀ x ∈ l, (K' x).isSome := by
  intro l
  induction l with
  | nil => exact fun {W K} h _ => ⟨K, .refl, h, rfl, by simp⟩
  | cons x l ih =>
    intro W K h hone
    obtain ⟨hfirst, hrest⟩ := List.forall_mem_cons.mp hone
    obtain ⟨hlike, K₁, hle₁, h₁, hx⟩ := hfirst W K .refl h
    obtain ⟨K₂, hle₂, h₂, hl, hin⟩ := ih h₁ fun y hy W' K' hlike' =>
      hrest y hy W' K' (hlike.trans hlike')
    have hx₂ := hle₂ x _ hx
    refine ⟨K₂, hle₁.trans hle₂, h₂, ?_, ?_⟩
    · rw [askAll_cons, List.map_cons, hl, hx₂]
      rfl
    · exact List.forall_mem_cons.mpr ⟨by rw [hx₂]; rfl, hin⟩

/-- What is derived of known inputs is known from then on. -/
theorem Holds.learn {K : Table} {s : Option Schema} {o : Operation} {uids : UidSupply}
    (h : W.Holds K) (hop : W.op r = some op) (hnew : K r = none)
    (hin : ∀ x ∈ W.inputs r, (K x).isSome)
    (hd : op.bareDerive ((W.inputs r).map fun x => (K x).join) W.uids = (s, o, uids)) :
    K.Le (Function.update K r (some s)) ∧
      (W.note r o uids).Holds (Function.update K r (some s)) := by
  have hne : ∀ x, (K x).isSome → x ≠ r := by
    rintro x hx rfl
    rw [hnew] at hx
    cases hx
  have hsame : ∀ l : List NodeId, (∀ x ∈ l, (K x).isSome) →
      (l.map fun x => (Function.update K r (some s) x).join) = l.map fun x => (K x).join :=
    fun l hl => List.map_congr_left fun x hx => by rw [Function.update_of_ne (hne x (hl x hx))]
  have hkept : ∀ x, (K x).isSome → (Function.update K r (some s) x).isSome := fun x hx => by
    rwa [Function.update_of_ne (hne x hx)]
  refine ⟨fun x t ht => ?_, fun x t ht => ?_⟩
  · rwa [Function.update_of_ne (hne x (by rw [ht]; rfl))]
  by_cases hx : x = r
  · subst hx
    obtain rfl : s = t := by simpa using ht
    refine ⟨{ op with operation := o }, ?_, fun y hy => hkept y (hin y hy), fun again => ?_⟩
    · show (W.note x o uids).op x = _
      rw [op_note, if_pos rfl, hop]
      rfl
    · show Operator.bareDerive _ ((W.inputs x).map _) _ = _
      rw [hsame _ hin]
      exact Operator.bareDerive_again hd again
  · rw [Function.update_of_ne hx] at ht
    obtain ⟨op', hop', hin', hderive⟩ := h x t ht
    refine ⟨op', ?_, fun y hy => hkept y (hin' y hy), fun again => ?_⟩
    · show (W.note r o uids).op x = _
      rw [op_note, if_neg hx, hop']
    · show op'.bareDerive ((W.inputs x).map _) _ = _
      rw [hsame _ hin']
      exact hderive again

/-- A request makes known what it asks for, and what was known stays so. -/
theorem Holds.ask : ∀ {n : Nat} {r : NodeId} {W : Flow} {K : Table}, W.Holds K → W.Graded rank →
    (W.op r).isSome → rank r < n →
    ∃ K', K.Le K' ∧ (ask n r W).2.Holds K' ∧ K' r = some (ask n r W).1 := by
  intro n
  induction n with
  | zero => exact fun _ _ _ hn => absurd hn (Nat.not_lt_zero _)
  | succ n ih =>
    intro r W K h hW hr hn
    obtain ⟨K₁, hle, h₁, hall, hin⟩ := @Holds.askAll (Flow.ask n) (W.inputs r) _ _ h
      fun x hx W' K' hlike h' => by
        obtain ⟨hlt, hx⟩ := hW r x hx
        exact ⟨.ask _ _ _, ih h' (hW.like hlike) (by rwa [hlike.isSome]) (by omega)⟩
    have hlike := Like.askAll (Like.ask n) (W.inputs r) W
    obtain ⟨op, hop⟩ := Option.isSome_iff_exists.mp (show
      ((Flow.askAll (Flow.ask n) (W.inputs r) W).2.op r).isSome by rwa [hlike.isSome])
    rw [ask_of_op hop, hall]
    generalize (Flow.askAll (Flow.ask n) (W.inputs r) W).2 = W₁ at *
    rw [← hlike.inputs] at hin ⊢
    cases hknown : K₁ r with
    | some t =>
      obtain ⟨op', hop', -, hderive⟩ := h₁ r t hknown
      obtain rfl : op = op' := Option.some.inj (hop.symm.trans hop')
      rw [hderive]
      refine ⟨K₁, hle, ?_, hknown⟩
      simp only [note_self hop]
      exact h₁
    | none =>
      cases hd : op.bareDerive ((W₁.inputs r).map fun x => (K₁ x).join) W₁.uids with
      | mk s rest =>
      obtain ⟨hle', h'⟩ := h₁.learn hop hknown hin hd
      exact ⟨Function.update K₁ r (some s), hle.trans hle', h',
        Function.update_self ..⟩

end Flow

end Dataflow

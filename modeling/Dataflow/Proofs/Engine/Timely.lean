import Dataflow.Proofs.Engine.Running

/-!
# Rows are there when they are asked for

Evaluating an operator can fail because rows were asked for that nobody had made, or because of the
rows themselves. The first cannot happen in a stage of a prepared plan, on any storage: its
operators stand behind their inputs (`timely_runStage`).
-/

namespace Dataflow

open Dataflow.Graph Plan

/-- Rows were asked for before they were there. -/
def RunFault.isPremature : RunFault → Bool
  | .inputNotEvaluated _ _ | .storeNotEvaluated _ | .missingInput => true
  | _ => false

/-- What went wrong at the bottom is that rows were asked for before they were there. -/
def RunError.isPremature : RunError → Bool
  | .invalid fault => fault.isPremature
  | .inOperator _ cause => cause.isPremature
  | _ => false

/-- If this fails, it is not because rows were asked for before they were there. -/
def Timely {β : Type} (r : RunResult β) : Prop := ∀ e, r = .error e → e.isPremature = false

namespace Timely

variable {β γ : Type} {r : RunResult β}

theorem ok {b : β} : Timely (.ok b : RunResult β) := fun _ h => by cases h

theorem error {e : RunError} (h : e.isPremature = false) : Timely (.error e : RunResult β) :=
  fun _ heq => by
    cases heq
    exact h

theorem bind {k : β → RunResult γ} (hr : Timely r) (hk : ∀ b, r = .ok b → Timely (k b)) :
    Timely (r >>= k) := by
  cases r with
  | ok b => exact hk b rfl
  | error e => exact .error (hr e rfl)

theorem ofResult (r : Result β) : Timely (RunResult.ofResult r) := by
  cases r with
  | ok b => exact .ok
  | error e => exact .error rfl

theorem mapM {f : γ → RunResult β} (hf : ∀ c, Timely (f c)) : ∀ l : List γ, Timely (l.mapM f)
  | [] => .ok
  | c :: l => by
    rw [List.mapM_cons]
    exact (hf c).bind fun _ _ => (mapM hf l).bind fun _ _ => .ok

end Timely

/-! ## Formulas -/

namespace Formula

variable {rows : Rows}

theorem timely_truth (v : Value) : Timely (truth v) := by
  cases v <;> first | exact .ok | exact .error rfl

theorem timely_negateValue (v : Value) : Timely (negateValue v) := by
  cases v <;> first | exact .ok | exact .error rfl

theorem timely_lookupValue (key : String) (v : Value) : Timely (lookupValue key v) := by
  cases v <;> first | exact .ok | exact .error rfl

theorem timely_arithmeticValue (op : Arithmetic) (a b : Value) :
    Timely (arithmeticValue op a b) := by
  unfold arithmeticValue
  split_ifs
  · exact .ok
  · repeat' split
    all_goals first | exact .ok | exact .error rfl

theorem timely_connective {decisive : Bool} {left right : RunResult Value} (hl : Timely left)
    (hr : Timely right) : Timely (connective decisive left right) := by
  unfold connective
  refine hl.bind fun a _ => (timely_truth a).bind fun l _ => ?_
  split
  · exact .ok
  · refine hr.bind fun b _ => (timely_truth b).bind fun r _ => ?_
    split <;> exact .ok

theorem timely_valueNode (id : NodeId) (t : Term) {operands : List (RunResult Value)}
    (h : ∀ r ∈ operands, Timely r) : Timely (valueNode rows id t operands) := by
  have hoperand : ∀ i, Timely (operandValue operands i) := fun i => by
    unfold operandValue
    cases hi : operands[i]? with
    | none => exact .error rfl
    | some r => exact h r (List.mem_of_getElem? hi)
  have ha := hoperand 0
  have hb := hoperand 1
  cases t with
  | const v => exact .ok
  | column input i uid => exact .ok
  | unary op =>
    cases op with
    | lookup key => exact ha.bind fun v _ => timely_lookupValue key v
    | not => exact ha.bind fun v _ => (timely_truth v).bind fun _ _ => .ok
    | isNull => exact ha.bind fun _ _ => .ok
    | negate => exact ha.bind fun v _ => timely_negateValue v
  | binary op =>
    cases op with
    | and => exact timely_connective ha hb
    | or => exact timely_connective ha hb
    | compare c => exact ha.bind fun _ _ => hb.bind fun _ _ => .ok
    | arithmetic op => exact ha.bind fun a _ => hb.bind fun b _ => timely_arithmeticValue op a b

mutual

theorem Unfolding.timely_value : ∀ u : Unfolding, Timely (u.value rows)
  | .missing _ => .error rfl
  | .node id t operands => timely_valueNode id t (Unfolding.timely_values operands)

theorem Unfolding.timely_values : ∀ l : List Unfolding,
    ∀ r ∈ Unfolding.foldAll (valueNode rows)
      (fun id => .error (.core (.graph (.unknownNode id)))) l, Timely r
  | [] => by simp [Unfolding.foldAll]
  | u :: l => by
    rw [Unfolding.foldAll, List.forall_mem_cons]
    exact ⟨Unfolding.timely_value u, Unfolding.timely_values l⟩

end

theorem timely_value (f : Formula) (rows : Rows) : Timely (f.value rows) :=
  (Timely.ofResult _).bind fun _ _ => Unfolding.timely_value _

theorem timely_holds (f : Formula) (rows : Rows) : Timely (f.holds rows) := by
  refine (timely_value f rows).bind fun v _ => ?_
  cases v <;> exact .ok

end Formula

/-! ## Relations -/

namespace Relation

open Formula

theorem timely_filter (f : Formula) : ∀ rel : Relation, Timely (filter f rel)
  | [] => .ok
  | row :: rel => (timely_holds f [row]).bind fun _ _ => (timely_filter f rel).bind fun _ _ => .ok

theorem timely_generateRow (row : Row) : ∀ (items : List Item) (partials : Relation),
    Timely (generateRow row items partials)
  | [], _ => .ok
  | item :: items, _ => (timely_value item.formula [row]).bind fun _ _ =>
      timely_generateRow row items _

theorem timely_generate (items : List Item) : ∀ rel : Relation, Timely (generate items rel)
  | [] => .ok
  | row :: rel => (timely_generateRow row items [[]]).bind fun _ _ =>
      (timely_generate items rel).bind fun _ _ => .ok

theorem timely_join (type : JoinType) (keys : List (List Formula)) (inputs : List Relation)
    (widths : List (Option Nat)) : Timely (join type keys inputs widths) := by
  have hkeyed : Timely (allWithKeys keys inputs) := by
    refine .mapM (fun _ => .mapM (fun row => ?_) _) _
    exact (Timely.mapM (fun f => timely_value f _) _).bind fun _ _ => .ok
  unfold join
  by_cases hlen : keys.length ≠ inputs.length
  · simp only [if_pos hlen, Pass.except_throw, Pass.except_error_bind]
    exact .error rfl
  · simp only [if_neg hlen]
    refine hkeyed.bind fun keyed _ => ?_
    split
    · exact .ok
    · exact .ok
    · exact .error rfl

theorem timely_sort (keys : List SortKey) (rel : Relation) : Timely (sort keys rel) := by
  have hkeys : ∀ row, Timely (keys.mapM fun key => key.formula.value [row]) := fun row =>
    .mapM (fun key : SortKey => timely_value key.formula [row]) keys
  have hkeyed : Timely (rel.mapM fun row => do
      return (← keys.mapM (·.formula.value [row]), row)) :=
    .mapM (fun row => (hkeys row).bind fun _ _ => .ok) rel
  unfold sort
  exact hkeyed.bind fun _ _ => .ok

end Relation

/-! ## Operators in turn -/

namespace Engine

variable {p : Plan} {P : Prepared} {s s' : Storage} {z : NodeId} {stage : Stage}
  {results : Results} {done : List NodeId}

theorem timely_single {inputs : List Relation} (h : inputs ≠ []) : Timely (single inputs) := by
  cases inputs with
  | nil => exact absurd rfl h
  | cons rel rest => exact .ok

theorem timely_evalOperation {o : Operation} {inputs : List Relation}
    (h : o.type ≠ .load → inputs ≠ []) : Timely (evalOperation P z o inputs s) := by
  cases o with
  | load l => exact (Timely.ofResult _).bind fun _ _ => .ok
  | store location => exact (timely_single (h (by simp [Operation.type]))).bind fun _ _ =>
      (Timely.ofResult _).bind fun _ _ => .ok
  | filter f => exact (timely_single (h (by simp [Operation.type]))).bind fun rel _ =>
      (Relation.timely_filter f rel).bind fun _ _ => .ok
  | splitOutput f => exact (timely_single (h (by simp [Operation.type]))).bind fun rel _ =>
      (Relation.timely_filter f rel).bind fun _ _ => .ok
  | forEach items => exact (timely_single (h (by simp [Operation.type]))).bind fun rel _ =>
      (Relation.timely_generate items rel).bind fun _ _ => .ok
  | join type keys => exact (Relation.timely_join type keys inputs _).bind fun _ _ => .ok
  | sort keys => exact (timely_single (h (by simp [Operation.type]))).bind fun rel _ =>
      (Relation.timely_sort keys rel).bind fun _ _ => .ok
  | cross | union uids => exact .ok
  | split | distinct | limit n =>
    exact (timely_single (h (by simp [Operation.type]))).bind fun _ _ => .ok

/-- There are rows for each of the listed operators. -/
def HasRows (results : Results) (done : List NodeId) : Prop :=
  ∀ x ∈ done, (results.lookup x).isSome = true

theorem HasRows.cons (h : HasRows results done) (rel : Relation) :
    HasRows ((z, rel) :: results) (done ++ [z]) := by
  intro x hx
  by_cases hxz : x = z
  · simp [hxz]
  · have hx : x ∈ done := by simpa [hxz] using hx
    rw [List.lookup_cons, beq_eq_false_iff_ne.mpr hxz]
    exact h x hx

theorem HasRows.inputRows (h : HasRows results done) : ∀ {l : List NodeId}, (∀ x ∈ l, x ∈ done) →
    ∃ rels, inputRows results z l = .ok rels ∧ rels.length = l.length
  | [], _ => ⟨[], rfl, rfl⟩
  | x :: l, hl => by
    obtain ⟨hx, hl⟩ := List.forall_mem_cons.mp hl
    obtain ⟨rel, hrel⟩ := Option.isSome_iff_exists.mp (h x hx)
    obtain ⟨rels, hrels, hlen⟩ := h.inputRows hl
    refine ⟨rel :: rels, ?_, by simp [hlen]⟩
    unfold Engine.inputRows
    rw [hrel]
    simp only [hrels, Pass.except_ok_bind, Pass.except_pure]

/-- Operators that stand behind their inputs are all evaluated, unless one of them fails on rows
that are there. -/
theorem evalOperators_timely (hv : P.plan.Valid) : ∀ {l done : List NodeId} {results : Results}
    {s : Storage}, HasRows results done → (∀ z ∈ l, P.plan.graph.contains z = true) →
    (∀ before z behind, l = before ++ z :: behind →
      ∀ y ∈ P.plan.dataInputs z, y ∈ done ++ before) →
    Timely (evalOperators P l results s) ∧
      ∀ r, evalOperators P l results s = .ok r → HasRows r.1 (done ++ l)
  | [], done, results, s, hr, _, _ => by
    refine ⟨.ok, fun r h => ?_⟩
    cases h
    simpa using hr
  | z :: l, done, results, s, hr, hl, hord => by
    obtain ⟨hcz, hl'⟩ := List.forall_mem_cons.mp hl
    obtain ⟨op, hop⟩ := exists_operator? hcz
    obtain ⟨rels, hrels, hlen⟩ := hr.inputRows (z := z) (l := P.plan.dataInputs z)
      (by simpa using hord [] z l rfl)
    have hrun := evalOperators_cons (s := s) (l := l) hop hrels
    have heval : Timely (evalOperation P z op.operation rels s) :=
      timely_evalOperation fun hload hnil => by
        refine hv.dataInputs_ne_nil hop hload (List.length_eq_zero_iff.mp ?_)
        rw [← hlen, hnil]
        rfl
    cases hmade : evalOperation P z op.operation rels s with
    | error cause =>
      rw [hrun.1 cause hmade]
      exact ⟨.error (heval cause hmade), fun r h => by cases h⟩
    | ok made =>
      rw [hrun.2 made hmade]
      have ih := evalOperators_timely hv (s := made.2) (hr.cons (z := z) made.1) hl'
        fun before y behind heq w hw => by
          have := hord (z :: before) y behind (by rw [heq]; rfl) w hw
          simpa using this
      simpa using ih

/-- A stage never asks for rows before they are there, whatever it loads. -/
theorem timely_runStage (hP : Prepares p P) (hstage : IsStage p stage) (s : Storage) :
    Timely (runStage P stage s) := by
  have halike := hP.derived.alike
  have hmem : stage.store ∈ stage.operators := hstage.mem_operators.mpr (.inl rfl)
  have hcontains : ∀ z ∈ stage.operators, P.plan.graph.contains z = true := fun z hz => by
    rw [halike.contains]
    obtain ⟨name, hcore⟩ := hstage.store
    rcases hstage.mem_operators.mp hz with rfl | ⟨hcz, -⟩
    · rw [contains_eq_core?, hcore]
      rfl
    · exact hcz
  have hstart : HasRows [] [] := by
    intro x hx
    simp at hx
  obtain ⟨htimely, hdone⟩ := evalOperators_timely (halike.valid hP.valid) (s := s) hstart hcontains
    fun before z behind heq y hy => by
      rw [halike.dataInputs] at hy
      simpa using hstage.ordered before z behind heq y hy
  refine htimely.bind fun r hr => ?_
  obtain ⟨rel, hrel⟩ := Option.isSome_iff_exists.mp (hdone r hr stage.store (by simpa using hmem))
  dsimp only
  rw [hrel]
  exact .ok

end Engine

end Dataflow

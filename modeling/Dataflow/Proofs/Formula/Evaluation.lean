import Dataflow.Proofs.Formula.Undone
import Dataflow.Proofs.Formula.Value

/-!
# Evaluating formulas and their copies

Evaluation is a recursion over a graph in which nodes may be shared. It asks for an operand only
where it needs one: a conjunction or disjunction that its first operand decides does not look at the
second. `Evaluates` says that the recursion comes to an end at a node, and with which result. In a
valid formula it does so at every node, with the value of the node (`evaluates_iff`).

A copy of a part evaluates like the part, and a conjunction of copies like its operands one after
the other (`copies_evaluate_alike`): the order of operands survives however they are shared.
-/

namespace Dataflow.Formula

open Dataflow.Graph

variable {f a b : Formula} {rows : Rows} {x id : NodeId} {t : Term}
  {r left right : RunResult Value} {operands operands' : List (RunResult Value)} {e : RunError}

/-! ## Evaluation -/

/-- Whether a term looks at its second operand, given the result of the first. -/
def asksSecond (t : Term) (left : RunResult Value) : Bool :=
  match t with
  | .binary .and => (left >>= truth).toOption.any (· ≠ some false)
  | .binary .or => (left >>= truth).toOption.any (· ≠ some true)
  | .binary _ => left.isOk
  | _ => false

/-- The evaluation of a node comes to an end with a result. Nothing is said about the results of
operands that it does not ask for. -/
inductive Evaluates (f : Formula) (rows : Rows) : NodeId → RunResult Value → Prop
  | node {x : NodeId} {t : Term} {operands : List (RunResult Value)}
    (term : f.graph.content? x = some t)
    (length : operands.length = (f.graph.successors x).length)
    (first : ∀ y, (f.graph.successors x)[0]? = some y →
      Evaluates f rows y (operandValue operands 0))
    (second : ∀ y, (f.graph.successors x)[1]? = some y →
      asksSecond t (operandValue operands 0) = true →
      Evaluates f rows y (operandValue operands 1)) :
    Evaluates f rows x (valueNode rows default t operands)

theorem connective_congr {decisive : Bool} {right' : RunResult Value}
    (h : (left >>= truth).toOption.any (· ≠ some decisive) = true → right = right') :
    connective decisive left right = connective decisive left right' := by
  unfold connective
  cases hl : left with
  | error e => rfl
  | ok v =>
    cases ht : truth v with
    | error e => simp only [ht, bind, Except.bind]
    | ok l =>
      by_cases hd : l = some decisive
      · simp only [ht, hd, bind, Except.bind, if_true]
      · rw [h (by simpa [hl, bind, Except.bind, ht, Except.toOption] using hd)]

/-- A node makes the same of operands that agree where they are asked for. -/
theorem valueNode_congr (hfirst : operandValue operands 0 = operandValue operands' 0)
    (hsecond : asksSecond t (operandValue operands 0) = true →
      operandValue operands 1 = operandValue operands' 1) :
    valueNode rows id t operands = valueNode rows id t operands' := by
  unfold valueNode
  cases t with
  | const v => rfl
  | column input i name => rfl
  | unary op => cases op <;> simp only [hfirst]
  | binary op =>
    cases op with
    | and =>
      simp only [← hfirst]
      exact connective_congr hsecond
    | or =>
      simp only [← hfirst]
      exact connective_congr hsecond
    | compare c =>
      simp only [← hfirst]
      cases hl : operandValue operands 0 with
      | error e => rfl
      | ok v => simp only [hsecond (by rw [hl]; rfl)]
    | arithmetic op =>
      simp only [← hfirst]
      cases hl : operandValue operands 0 with
      | error e => rfl
      | ok v => simp only [hsecond (by rw [hl]; rfl)]

/-- The operand at a place is there where the node below it is. -/
theorem operandValue_congr {i : Nat} {xs : List NodeId} {value : NodeId → RunResult Value}
    (hlen : operands.length = xs.length)
    (h : ∀ y, xs[i]? = some y → operandValue operands i = value y) :
    operandValue operands i = operandValue (xs.map value) i := by
  cases hy : xs[i]? with
  | some y => rw [h y hy, operandValue, List.getElem?_map, hy]; rfl
  | none =>
    have hnone : operands[i]? = none := by
      rw [List.getElem?_eq_none_iff] at hy ⊢
      omega
    rw [operandValue, operandValue, List.getElem?_map, hy, hnone]
    rfl

/-- In a valid formula the evaluation of every node ends, with the value of the node. -/
theorem evaluates_iff (hf : f.Sound) (hv : f.Valid) (hx : f.graph.contains x = true) :
    f.Evaluates rows x r ↔ f.valueAt rows x = r := by
  constructor
  · intro h
    clear hx
    induction h with
    | node term length first second ihfirst ihsecond =>
      rw [valueAt_eq hf hv term]
      refine (valueNode_congr (operandValue_congr length fun y hy => (ihfirst y hy).symm) ?_).symm
      intro hasks
      exact operandValue_congr length fun y hy => (ihsecond y hy hasks).symm
  · rintro rfl
    refine hv.acyclic.outputs_first (P := fun x => f.Evaluates rows x (f.valueAt rows x))
      hf.wellFormed (fun x t ht houts => ?_) x hx
    rw [valueAt_eq hf hv ht]
    have hoperand : ∀ i y, (f.graph.successors x)[i]? = some y → f.Evaluates rows y
        (operandValue ((f.graph.successors x).map (f.valueAt rows)) i) := by
      intro i y hy
      rw [operandValue, List.getElem?_map, hy]
      exact houts y (List.mem_of_getElem? hy)
    exact .node ht (List.length_map _) (hoperand 0) fun y hy _ => hoperand 1 y hy

/-! ## Conjunctions -/

/-- Whether two truths both hold; unknown if that depends on one that is unknown. -/
def bothHold : Option Bool → Option Bool → Option Bool
  | some false, _ => some false
  | _, some false => some false
  | some true, some true => some true
  | _, _ => none

section Connective

variable {truthL : Option Bool}

theorem connective_of_error {decisive : Bool} (h : left >>= truth = .error e) :
    connective decisive left right = .error e := by
  unfold connective
  rw [← bind_assoc, h]
  rfl

theorem connective_of_false (h : left >>= truth = .ok (some false)) :
    connective false left right = .ok (.boolean false) := by
  unfold connective
  rw [← bind_assoc, h]
  rfl

theorem connective_of_not_false (h : left >>= truth = .ok truthL) (hne : truthL ≠ some false) :
    connective false left right =
      (right >>= truth).map fun truthR => ofTruth (bothHold truthL truthR) := by
  unfold connective
  rw [← bind_assoc, h]
  show (if truthL = some false then _ else _) = _
  rw [if_neg hne, ← bind_assoc]
  cases right >>= truth with
  | error e => rfl
  | ok truthR =>
    rcases truthL with _ | _ | _
    · rcases truthR with _ | _ | _ <;> rfl
    · exact absurd rfl hne
    · rcases truthR with _ | _ | _ <;> rfl

end Connective

/-! ## Copies -/

/-- The copy of the part below any node evaluates to what the node evaluates to. -/
theorem value_subformula (hf : f.Sound) (hv : f.Valid) (hx : f.graph.contains x = true) :
    ∃ part, f.subformula x = .ok part ∧ ∀ rows, part.value rows = f.valueAt rows x ∧
      f.Evaluates rows x (part.value rows) := by
  obtain ⟨part, hrun, hpart⟩ := subformula_spec x hf hv hx
  obtain ⟨root, hroot, hcompute⟩ := hpart.compute
  refine ⟨part, hrun, fun rows => ?_⟩
  have hvalue : part.value rows = f.valueAt rows x := by
    rw [value_of_root hroot]
    exact hcompute _ _ _
  exact ⟨hvalue, (evaluates_iff hf hv hx).mpr hvalue.symm⟩

/-- The copy of the part below a node of a valid formula evaluates like the node. The conjunction of
two valid formulas evaluates like the first one if that is false or fails, or has a value that is no
truth; otherwise like the three-valued conjunction of both, the second failing for the same
reasons. -/
theorem copies_evaluate_alike (ha : a.Sound) (hva : a.validate = .ok ()) (hb : b.Sound)
    (hvb : b.validate = .ok ()) :
    (∀ id, a.graph.contains id = true → ∃ part, a.subformula id = .ok part ∧
      ∀ rows, part.value rows = a.valueAt rows id ∧ a.Evaluates rows id (part.value rows)) ∧
    (Conjoinable a b → ∃ c, a.conjunction b = .ok c ∧ ∀ rows,
      (a.value rows = .ok (.boolean false) → c.value rows = .ok (.boolean false)) ∧
      (∀ e, a.value rows = .error e → c.value rows = .error e) ∧
      (∀ v e, a.value rows = .ok v → truth v = .error e → c.value rows = .error e) ∧
      ∀ v truthA, a.value rows = .ok v → truth v = .ok truthA → truthA ≠ some false →
        c.value rows =
          (b.value rows >>= truth).map fun truthB => ofTruth (bothHold truthA truthB)) := by
  have hva := (validate_eq_ok ha).mp hva
  have hvb := (validate_eq_ok hb).mp hvb
  refine ⟨fun id hid => value_subformula ha hva hid, fun hroom => ?_⟩
  obtain ⟨c, hrun, -, -, -, hand⟩ := hroom.conjunction ha hva hb hvb
  refine ⟨c, hrun, fun rows => ?_⟩
  rw [hand.value]
  refine ⟨fun hfalse => ?_, fun e he => ?_, fun v e hv he => ?_, fun v truthA hv ht hne => ?_⟩
  · rw [hfalse]
    exact connective_of_false rfl
  · rw [he]
    exact connective_of_error rfl
  · rw [hv]
    exact connective_of_error he
  · rw [hv]
    exact connective_of_not_false ht hne

/-- The shared column may be true, null, or nothing that logic is defined for. -/
theorem sharing_evaluated : (sharing true).Sound ∧ (sharing true).validate = .ok () ∧
    (sharing false).Sound ∧ (sharing false).validate = .ok () ∧
    (∃ part, (sharing true).subformula ⟨1⟩ = .ok part ∧
      part.value [[.boolean true]] = .ok (.boolean false) ∧
      part.value [[.int 1]] = .error (.eval (.undefined "boolean logic" (some .int)))) ∧
    ∃ c, (sharing true).conjunction (sharing false) = .ok c ∧
      c.value [[.boolean true]] = .ok (.boolean false) ∧ c.value [[.null]] = .ok .null ∧
      c.value [[.int 1]] = .error (.eval (.undefined "boolean logic" (some .int))) := by
  have ha : (sharing true).Sound := ⟨by decide +kernel, by decide +kernel⟩
  have hva : (sharing true).validate = .ok () := by decide +kernel
  have hb : (sharing false).Sound := ⟨by decide +kernel, by decide +kernel⟩
  have hvb : (sharing false).validate = .ok () := by decide +kernel
  have hroom := conjoinable_of_length ha hb (by decide +kernel)
  obtain ⟨hparts, hconjunction⟩ := copies_evaluate_alike ha hva hb hvb
  obtain ⟨part, hpart, hnode⟩ := hparts ⟨1⟩ (by decide +kernel)
  obtain ⟨c, hc, hvalue⟩ := hconjunction hroom
  refine ⟨ha, hva, hb, hvb, ⟨part, hpart, (hnode _).1, (hnode _).1⟩, c, hc, ?_, ?_, ?_⟩
  · exact (hvalue [[.boolean true]]).1 rfl
  · obtain ⟨-, -, -, hboth⟩ := hvalue [[.null]]
    exact hboth .null none rfl rfl (by decide)
  · exact (hvalue [[.int 1]]).2.1 _ rfl

end Dataflow.Formula

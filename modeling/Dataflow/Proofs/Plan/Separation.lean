import Dataflow.Proofs.Graph.Isomorphism
import Dataflow.Proofs.Plan.Legible
import Dataflow.Proofs.Plan.Requests
import Dataflow.Proofs.Plan.Valid

/-!
# Plans told apart by their texts

Plans that are the same up to keys and identities of columns have the same text, but not only those:
a text leaves open what binds the operands of `NOT`, of a sign and of a test for null
(`not_same_of_canonicalText`), which column a shown name stands for, where a quoted text ends, which
operands are shared and in which order an operator has its outputs. Plans in which nothing of this
is open are legible (`isLegible`), and such plans are the same if they have the same text
(`same_of_canonicalText`).

A text is taken apart into lines; the inputs of an operator stand at the end of its line.
-/

namespace Dataflow.Plan

open Dataflow.Graph
open Text

variable {p q : Plan} {order order' : List NodeId} {x y : NodeId} {a b : Operator}

/-! ## Lines -/

/-- The characters of lists of lines. -/
def isListChar (c : Char) : Bool := c.isDigit || c == ','

/-- The list of the lines on which the inputs of an operator stand. -/
def inputsText (places : List Nat) : List Char := (Text.join "," (places.map Nat.repr)).toList

theorem isListChar_of_mem : ∀ {places : List Nat}, ∀ c ∈ inputsText places, isListChar c = true
  | [], c, hc => by simp [inputsText, Text.join] at hc
  | [n], c, hc => by
    have hc : c ∈ n.repr.toList := by simpa [inputsText, Text.join] using hc
    simp [isListChar, isDigit_of_mem_repr hc]
  | n :: m :: places, c, hc => by
    have heq : inputsText (n :: m :: places) =
        n.repr.toList ++ ',' :: inputsText (m :: places) := by
      rw [inputsText, List.map_cons, join_cons (by simp)]
      simp [inputsText]
    rw [heq] at hc
    rcases List.mem_append.mp hc with hc | hc
    · simp [isListChar, isDigit_of_mem_repr hc]
    · rcases List.mem_cons.mp hc with rfl | hc
      · decide
      · exact isListChar_of_mem c hc

theorem inputsText_inj {ms ns : List Nat} (h : inputsText ms = inputsText ns) : ms = ns := by
  have hall := readable_repr.join_whole "," (fun r => .cons (by decide)) .nil (by decide)
    (fun n _ => repr_toList_ne_nil n) (fun _ _ => trivial) (fun _ _ => trivial)
    (String.toList_inj.mp h)
  exact List.forall₂_eq_eq_eq ▸ hall

/-- A line up to its end. -/
def lineText (number : Nat) (text : String) (places : List Nat) : List Char :=
  number.repr.toList ++ ':' :: ' ' :: (text.toList ++ ' ' :: '<' :: '-' :: ' ' :: '[' ::
    (inputsText places ++ [']']))

theorem line_toList (number : Nat) : (p.line order number x a).toList =
    lineText number a.text ((p.predecessors x).map order.idxOf) ++ ['\n'] := by
  simp [line, lineText, inputsText, toString]
  rfl

theorem newline_not_mem_lineText {number : Nat} {text : String} {places : List Nat}
    (h : '\n' ∉ text.toList) : '\n' ∉ lineText number text places := by
  have hdigits : '\n' ∉ number.repr.toList := fun hmem =>
    absurd (isDigit_of_mem_repr hmem) (by decide)
  have hinputs : '\n' ∉ inputsText places := fun hmem =>
    absurd (isListChar_of_mem _ hmem) (by decide)
  generalize hnumber : number.repr.toList = digits at hdigits
  simp [lineText, hnumber, h, hdigits, hinputs]

/-- The inputs are what stands at the end of a line. -/
theorem lineText_inj {number : Nat} {text text' : String} {places places' : List Nat}
    (h : lineText number text places = lineText number text' places') :
    text = text' ∧ places = places' := by
  have h := congrArg List.reverse (List.cons.inj (List.cons.inj (List.append_cancel_left h)).2).2
  simp only [List.reverse_append, List.reverse_cons, List.reverse_nil, List.nil_append,
    List.append_assoc, List.cons_append, List.cons.injEq, true_and] at h
  have hlist : ∀ {places : List Nat}, ∀ c ∈ (inputsText places).reverse, isListChar c = true :=
    fun c hc => isListChar_of_mem c (List.mem_reverse.mp hc)
  obtain ⟨hplaces, hrest⟩ := word_append_inj hlist hlist (.cons (by decide)) (.cons (by decide)) h
  simp only [List.cons.injEq, true_and] at hrest
  exact ⟨String.toList_inj.mp (List.reverse_inj.mp hrest),
    inputsText_inj (List.reverse_inj.mp hplaces)⟩

/-- The lines of one operator each have the same text and the same inputs. -/
def SameLine (p q : Plan) (order order' : List NodeId) (x y : NodeId) : Prop :=
  ∃ a b, p.operator? x = some a ∧ q.operator? y = some b ∧ a.text = b.text ∧
    (p.predecessors x).map order.idxOf = (q.predecessors y).map order'.idxOf

/-- The text of an operator goes over one line. -/
def OneLine (p : Plan) : Prop := ∀ x a, p.operator? x = some a → '\n' ∉ a.text.toList

theorem linesOf_cons_eq_ok {number : Nat} {rest : List (NodeId × Nat)} {text : String}
    (h : p.linesOf order ((x, number) :: rest) = .ok text) : ∃ a behind,
      p.operator? x = some a ∧ p.linesOf order rest = .ok behind ∧
      text.toList = lineText number a.text ((p.predecessors x).map order.idxOf) ++
        '\n' :: behind.toList := by
  unfold linesOf at h
  obtain ⟨a, ha, h⟩ := Pass.except_bind_eq_ok.mp h
  obtain ⟨behind, hbehind, h⟩ := Pass.except_bind_eq_ok.mp h
  obtain rfl := Except.ok.inj h
  refine ⟨a, behind, operator_eq_ok.mp ha, hbehind, ?_⟩
  rw [String.toList_append, line_toList, List.append_assoc]
  rfl

/-- The same text is made of the same lines. -/
theorem linesOf_inj (hp : p.OneLine) (hq : q.OneLine) : ∀ {xs ys : List NodeId} {number : Nat}
    {text : String}, p.linesOf order (xs.zipIdx number) = .ok text →
    q.linesOf order' (ys.zipIdx number) = .ok text →
    List.Forall₂ (SameLine p q order order') xs ys
  | [], [], _, _, _, _ => .nil
  | [], y :: ys, number, text, h, h' => by
    obtain rfl := Except.ok.inj h
    obtain ⟨b, behind, -, -, htext⟩ := linesOf_cons_eq_ok h'
    simp at htext
  | x :: xs, [], number, text, h, h' => by
    obtain rfl := Except.ok.inj h'
    obtain ⟨a, behind, -, -, htext⟩ := linesOf_cons_eq_ok h
    simp at htext
  | x :: xs, y :: ys, number, text, h, h' => by
    obtain ⟨a, behind, ha, hbehind, htext⟩ := linesOf_cons_eq_ok h
    obtain ⟨b, behind', hb, hbehind', htext'⟩ := linesOf_cons_eq_ok h'
    obtain ⟨hline, hrest⟩ := marked_append_inj (newline_not_mem_lineText (hp x a ha))
      (newline_not_mem_lineText (hq y b hb)) (htext.symm.trans htext')
    obtain ⟨htexts, hplaces⟩ := lineText_inj hline
    obtain rfl := String.toList_inj.mp hrest
    exact .cons ⟨a, b, ha, hb, htexts, hplaces⟩ (linesOf_inj hp hq hbehind hbehind')

/-! ## Legible plans -/

/-- Whether every operator can be told from its text, if `place` says for which column a name stands
that is shown on a line for an input, and has its outputs in the order of the lines. -/
def isLegible (place : Nat → Nat → String → Nat) (p : Plan) : Bool :=
  match p.graph.topologicalOrder with
  | .ok order => p.toList.all fun (x, op) => op.isClear (place (order.idxOf x)) &&
      decide (((p.successors x).map order.idxOf).Pairwise (· < ·))
  | .error _ => false

variable {place : Nat → Nat → String → Nat}

theorem isLegible_iff (hp : p.graph.WellFormed) (horder : p.graph.topologicalOrder = .ok order) :
    p.isLegible place = true ↔
      (∀ x a, p.operator? x = some a → a.isClear (place (order.idxOf x)) = true) ∧
      p.graph.OutputsListed order := by
  have hmem : ∀ {x a}, (x, a) ∈ p.toList ↔ p.operator? x = some a := hp.mem_toList_iff
  simp only [isLegible, horder, List.all_eq_true, Prod.forall, hmem, Bool.and_eq_true,
    decide_eq_true_eq]
  refine ⟨fun h => ⟨fun x a ha => (h x a ha).1, fun x => ?_⟩, fun h x a ha => ⟨h.1 x a ha, h.2 x⟩⟩
  cases hsuc : p.graph.successors x with
  | nil => exact .nil
  | cons y ys =>
    have hy : x ∈ p.graph.predecessors y := (hp.edge x y).mp (by simp [hsuc])
    obtain ⟨a, ha⟩ := exists_operator? (hp.source hy)
    exact hsuc ▸ (h x a ha).2

theorem canonicalText_eq_ok {text : String} (h : p.canonicalText = .ok text) : ∃ order,
    p.graph.topologicalOrder = .ok order ∧ p.linesOf order order.zipIdx = .ok text := by
  unfold canonicalText at h
  obtain ⟨order, horder, h⟩ := Pass.except_bind_eq_ok.mp h
  exact ⟨order, orError_eq_ok.mp horder, h⟩

theorem Valid.clear (hv : p.Valid) (hf : p.FormulasSound) {place : Nat → String → Nat}
    (ha : p.operator? x = some a) (hclear : a.isClear place = true) :
    a.operation.Clear place := by
  simp only [Operator.isClear, Bool.and_eq_true] at hclear
  refine ⟨hf x a ha, fun f hmem => ?_, hclear.1.2⟩
  have hload : a.type ≠ .load := fun hload => by
    obtain ⟨name, o, memo⟩ := a
    cases o <;> simp [Operator.type, Operation.type] at hload
    simp [Operation.formulas] at hmem
  exact (((hv.operators x a ha).other hload).formulas f hmem).valid

/-- Operators on corresponding lines are the same. -/
theorem SameLine.samePlace {place : Nat → String → Nat} (hpv : p.Valid) (hqv : q.Valid)
    (hpf : p.FormulasSound) (hqf : q.FormulasSound)
    (hpl : ∀ a, p.operator? x = some a → a.isClear place = true)
    (hql : ∀ b, q.operator? y = some b → b.isClear place = true)
    (h : SameLine p q order order' x y) :
    SamePlace (fun a b => a.same b = true) p.graph q.graph order order' x y := by
  obtain ⟨a, b, ha, hb, htext, hinputs⟩ := h
  have hca := hpl a ha
  have hcb := hql b hb
  have hsame := Operator.same_of_text_eq (hpv.clear hpf ha hca) (hqv.clear hqf hb hcb)
    (by simp only [Operator.isClear, Bool.and_eq_true] at hca; exact hca.1.1)
    (by simp only [Operator.isClear, Bool.and_eq_true] at hcb; exact hcb.1.1) htext
  refine ⟨fun c hc => ⟨b, hb, ?_⟩, hinputs⟩
  obtain rfl : a = c := Option.some.inj (ha.symm.trans hc)
  exact hsame

theorem oneLine_of_isClear {place : NodeId → Nat → String → Nat}
    (h : ∀ x a, p.operator? x = some a → a.isClear (place x) = true) : p.OneLine := fun x a ha => by
  have hclear := h x a ha
  simp only [Operator.isClear, Bool.and_eq_true] at hclear
  simpa using hclear.2

/-- Legible plans with the same text are the same, up to keys and identities of columns. -/
theorem same_of_canonicalText (hp : p.Sound) (hq : q.Sound) (hpv : p.validate = .ok ())
    (hqv : q.validate = .ok ()) (hpl : p.isLegible place = true) (hql : q.isLegible place = true)
    (h : p.canonicalText = q.canonicalText) : p.same q = true := by
  have hpv := (validate_eq_ok hp.wellFormed hp.formulas).mp hpv
  have hqv := (validate_eq_ok hq.wellFormed hq.formulas).mp hqv
  obtain ⟨text, htext⟩ := exists_canonicalText hp.wellFormed hpv.acyclic
  obtain ⟨order, horder, hlines⟩ := canonicalText_eq_ok htext
  obtain ⟨order', horder', hlines'⟩ := canonicalText_eq_ok (h.symm.trans htext)
  obtain ⟨hpclear, hpout⟩ := (isLegible_iff hp.wellFormed horder).mp hpl
  obtain ⟨hqclear, hqout⟩ := (isLegible_iff hq.wellFormed horder').mp hql
  obtain ⟨hnodup, hmem, -⟩ := topologicalOrder_spec hp.wellFormed horder
  obtain ⟨hnodup', hmem', -⟩ := topologicalOrder_spec hq.wellFormed horder'
  have hall := linesOf_inj (oneLine_of_isClear hpclear) (oneLine_of_isClear hqclear) hlines hlines'
  refine (isIsomorphic_iff hp.wellFormed hq.wellFormed hpv.acyclic).mpr
    ⟨_, isomorphism_of_positions hp.wellFormed hq.wellFormed hnodup hnodup' hmem hmem'
      (List.forall₂_iff_get.mpr ⟨hall.length_eq, fun i hi hi' => ?_⟩) hpout hqout⟩
  -- both nodes stand on the same line
  refine (hall.get hi hi').samePlace hpv hqv hp.formulas hq.formulas (hpclear _) fun b hb => ?_
  have hline : order.idxOf (order.get ⟨i, hi⟩) = order'.idxOf (order'.get ⟨i, hi'⟩) :=
    (hnodup.idxOf_getElem i hi).trans (hnodup'.idxOf_getElem i hi').symm
  exact hline ▸ hqclear _ b hb

/-- Rows for which a predicate holds. The operators are added in the order of the rows, or the other
way round. -/
def sifted (predicate : Expr) (backward : Bool) : Plan := made do
  let column : Field := { name := some "x", type := .boolean }
  let load : Operator := { operation := .load { location := "/in", declared := some [column] } }
  let filter : Operator := { operation := .filter ((Formula.ofExpr predicate).toOption.getD {}) }
  let store : Operator := { operation := .store "/out" }
  if backward then
    let last ← insert store
    let middle ← insert filter
    let first ← insert load
    connect first middle
    connect middle last
  else
    let first ← append load []
    let middle ← append filter [first]
    discard (append store [middle])

/-- The first column under its name. -/
def flag : Expr := .column 0 0 (some "x")

/-- What a test for null is made on is not to be seen, nor what is negated. -/
theorem not_same_of_canonicalText : ¬ ∀ p q : Plan, p.Sound → q.Sound → p.validate = .ok () →
    q.validate = .ok () → p.canonicalText = q.canonicalText → p.same q = true := by
  intro h
  have hsame := h (sifted flag.isNull.not false) (sifted flag.not.isNull false)
    (sound_of_fresh (by decide +kernel) (by decide +kernel) (by decide +kernel))
    (sound_of_fresh (by decide +kernel) (by decide +kernel) (by decide +kernel))
    (by decide +kernel) (by decide +kernel) (by decide +kernel)
  have hdiffer : (sifted flag.isNull.not false).same (sifted flag.not.isNull false) =
    false := by decide +kernel
  exact absurd (hsame.symm.trans hdiffer) (by simp)

end Dataflow.Plan

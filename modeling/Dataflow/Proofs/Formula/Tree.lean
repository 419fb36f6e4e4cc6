import Dataflow.Proofs.Formula.Readable
import Dataflow.Proofs.Formula.Unfolding
import Dataflow.Proofs.Graph.Isomorphism

/-!
# Formulas that are trees

Every node of a valid formula stands for an expression (`exists_standsFor`), of which the text of
the formula is the text. Different formulas may stand for the same expression, if they share
operands in different ways. Formulas in which every node is the operand of at most one other are
equal up to keys if they stand for the same expression (`same_of_alike`): nodes at the same place
below the root are paired (`Together`), and by the places each node has one partner.
-/

namespace Dataflow

open Dataflow.Graph

/-- What is written like a number is one, and so equals itself. -/
theorem Binary.equals_self_of_isNumeral {f : Format} {x : Binary f} {style : Decimal.Style}
    (hstyle : isNumeral style.nan = false) (h : isNumeral (x.text style) = true) :
    x.equals x = true := by
  have hnan : x.isNaN = false := by
    by_contra hnan
    rw [Binary.text, if_pos (by simpa using hnan), hstyle] at h
    cases h
  simp [Binary.equals, hnan]

/-- A constant that can be told from its text is equal to itself. -/
theorem Value.equals_self_of_legible {v : Value} (h : v.legible = true) : v.equals v = true := by
  cases v with
  | float x =>
    have hnumeral : isNumeral (x.text plainStyle) = true := (numeral_float h).1
    simpa [equals] using Binary.equals_self_of_isNumeral (by decide) hnumeral
  | double x =>
    have hnumeral : isNumeral (x.text numberStyle) = true := (numeral_double h).1
    simpa [equals] using Binary.equals_self_of_isNumeral (by decide) hnumeral
  | _ => simp_all [legible, equals]

theorem Expr.legible_of_unary {place : Nat → String → Nat} {op : UnaryOp} {e : Expr}
    (h : (unary op e).legible place = true) : e.legible place = true := by
  cases op <;> simp only [legible, Bool.and_eq_true] at h
  · exact h.2
  · exact h
  · exact h.2
  · exact h

namespace Formula

variable {f g : Formula} {x x' y y' : NodeId} {e e' : Expr} {place : Nat → String → Nat}

/-! ## Nodes and expressions -/

/-- A node and what hangs below it is an expression. -/
inductive StandsFor (f : Formula) : NodeId → Expr → Prop
  | const {x v} (node : f.graph.content? x = some (.const v)) (outs : f.graph.successors x = []) :
    StandsFor f x (.const v)
  | column {x input i name} (node : f.graph.content? x = some (.column input i name))
    (outs : f.graph.successors x = []) : StandsFor f x (.column input i name)
  | unary {x y op e} (node : f.graph.content? x = some (.unary op))
    (outs : f.graph.successors x = [y]) (operand : StandsFor f y e) : StandsFor f x (.unary op e)
  | binary {x y z op a b} (node : f.graph.content? x = some (.binary op))
    (outs : f.graph.successors x = [y, z]) (left : StandsFor f y a) (right : StandsFor f z b) :
    StandsFor f x (.binary op a b)

/-- Every node of a valid formula stands for an expression. -/
theorem exists_standsFor (hf : f.Sound) (hv : f.Valid) :
    ∀ x, f.graph.contains x = true → ∃ e, f.StandsFor x e := by
  refine hv.acyclic.outputs_first hf.wellFormed fun x t ht houts => ?_
  have harity := hv.arity x t ht
  cases t with
  | const v => exact ⟨_, .const ht (List.length_eq_zero_iff.mp harity)⟩
  | column input i name => exact ⟨_, .column ht (List.length_eq_zero_iff.mp harity)⟩
  | unary op =>
    obtain ⟨y, hy⟩ := List.length_eq_one_iff.mp harity
    obtain ⟨e, he⟩ := houts y (by simp [hy])
    exact ⟨_, .unary ht hy he⟩
  | binary op =>
    obtain ⟨y, z, hyz⟩ := List.length_eq_two.mp harity
    obtain ⟨a, ha⟩ := houts y (by simp [hyz])
    obtain ⟨b, hb⟩ := houts z (by simp [hyz])
    exact ⟨_, .binary ht hyz ha hb⟩

namespace StandsFor

/-- The text of a node is that of its expression. -/
theorem text_eq (hf : f.Sound) (hv : f.Valid) (h : f.StandsFor x e) :
    (f.unfold x).text = e.shown := by
  have heq : ∀ {x t}, f.graph.content? x = some t → (f.unfold x).text =
      Unfolding.textNode x t ((f.graph.successors x).map fun y => (f.unfold y).text) := fun ht =>
    compute_eq hf.wellFormed hv.acyclic ht
  induction h with
  | const node outs => rw [heq node, outs]; rfl
  | column node outs => rw [heq node, outs]; rfl
  | unary node outs _ ih =>
    rw [heq node, outs, List.map_singleton, ih]
    rfl
  | binary node outs _ _ iha ihb =>
    rw [heq node, outs, List.map_cons, List.map_singleton, iha, ihb]
    rfl

/-- The expression of a node. -/
theorem toExpr_eq (hf : f.Sound) (hv : f.Valid) (h : f.StandsFor x e) :
    (f.unfold x).toExpr = .ok e := by
  have heq : ∀ {x t}, f.graph.content? x = some t → (f.unfold x).toExpr =
      Unfolding.exprNode x t ((f.graph.successors x).map fun y => (f.unfold y).toExpr) := fun ht =>
    compute_eq hf.wellFormed hv.acyclic ht
  induction h with
  | const node outs => rw [heq node]; rfl
  | column node outs => rw [heq node]; rfl
  | unary node outs _ ih =>
    rw [heq node, outs, List.map_singleton, ih]
    rfl
  | binary node outs _ _ iha ihb =>
    rw [heq node, outs, List.map_cons, List.map_singleton, iha, ihb]
    rfl

end StandsFor

/-- Two nodes stand for the same legible expression, the shown names of columns aside. -/
def Alike (place : Nat → String → Nat) (f g : Formula) (x y : NodeId) : Prop :=
  ∃ a b, f.StandsFor x a ∧ g.StandsFor y b ∧ a.unlabeled = b.unlabeled ∧
    a.legible place = true ∧ b.legible place = true

/-- Nodes for the same expression have the same term, and operands for the same expressions. -/
theorem Alike.node (h : Alike place f g x y) :
    (∃ t u, f.graph.content? x = some t ∧ g.graph.content? y = some u ∧ t.same u = true) ∧
      List.Forall₂ (Alike place f g) (f.graph.successors x) (g.graph.successors y) := by
  obtain ⟨a, b, ha, hb, heq, hlegible, hlegible'⟩ := h
  cases ha with
  | const node outs =>
    cases hb with
    | const node' outs' =>
      obtain rfl := Expr.const.inj heq
      rw [outs, outs']
      exact ⟨⟨_, _, node, node', Value.equals_self_of_legible hlegible⟩, .nil⟩
    | _ => simp [Expr.unlabeled] at heq
  | column node outs =>
    cases hb with
    | column node' outs' =>
      obtain ⟨rfl, rfl, -⟩ := Expr.column.inj heq
      rw [outs, outs']
      exact ⟨⟨_, _, node, node', by simp [Term.same]⟩, .nil⟩
    | _ => simp [Expr.unlabeled] at heq
  | unary node outs operand =>
    cases hb with
    | unary node' outs' operand' =>
      obtain ⟨rfl, hoperand⟩ := Expr.unary.inj heq
      rw [outs, outs']
      exact ⟨⟨_, _, node, node', by simp [Term.same]⟩,
        .cons ⟨_, _, operand, operand', hoperand, Expr.legible_of_unary hlegible,
          Expr.legible_of_unary hlegible'⟩ .nil⟩
    | _ => simp [Expr.unlabeled] at heq
  | binary node outs left right =>
    cases hb with
    | binary node' outs' left' right' =>
      obtain ⟨rfl, hl, hr⟩ := Expr.binary.inj heq
      simp only [Expr.legible, Bool.and_eq_true] at hlegible hlegible'
      rw [outs, outs']
      exact ⟨⟨_, _, node, node', by simp [Term.same]⟩,
        .cons ⟨_, _, left, left', hl, hlegible.1, hlegible'.1⟩
          (.cons ⟨_, _, right, right', hr, hlegible.2, hlegible'.2⟩ .nil)⟩
    | _ => simp [Expr.unlabeled] at heq

/-! ## Trees -/

/-- Whether every node is the operand of at most one other. -/
def isTree (f : Formula) : Bool :=
  f.graph.ids.all fun x => (f.graph.predecessors x).length ≤ 1

theorem predecessors_of_isTree (hf : f.Sound) (htree : f.isTree = true)
    (hx : x ∈ f.graph.predecessors y) : f.graph.predecessors y = [x] := by
  have hlen : (f.graph.predecessors y).length ≤ 1 := by
    have hy : y ∈ f.graph.ids :=
      (hf.wellFormed.mem_ids y).mpr (hf.wellFormed.target ((hf.wellFormed.edge x y).mpr hx))
    simpa using List.all_eq_true.mp htree y hy
  match hpre : f.graph.predecessors y, hlen with
  | [], _ => simp [hpre] at hx
  | [z], _ =>
    rw [hpre, List.mem_singleton] at hx
    rw [hx]
  | _ :: _ :: _, h => simp at h

/-- Two nodes at the same place below two others. -/
inductive Together (f g : Formula) (r s : NodeId) : NodeId → NodeId → Prop
  | root : Together f g r s r s
  | step {x y x' y' : NodeId} {i : Nat} (above : Together f g r s x y)
    (left : (f.graph.successors x)[i]? = some x') (right : (g.graph.successors y)[i]? = some y') :
    Together f g r s x' y'

namespace Together

variable {r s : NodeId} {R : NodeId → NodeId → Prop}

theorem symm (h : Together f g r s x y) : Together g f s r y x := by
  induction h with
  | root => exact .root
  | step _ left right ih => exact .step ih right left

/-- A relation that is passed on to operands, slot by slot, holds of all that is together below two
nodes of which it holds. -/
theorem related (hR : ∀ x y, R x y → List.Forall₂ R (f.graph.successors x) (g.graph.successors y))
    (hroot : R r s) (h : Together f g r s x y) : R x y := by
  induction h with
  | root => exact hroot
  | step _ left right ih =>
    obtain ⟨hi, rfl⟩ := List.getElem?_eq_some_iff.mp left
    obtain ⟨hj, rfl⟩ := List.getElem?_eq_some_iff.mp right
    exact (hR _ _ ih).get hi hj

/-- In a tree without anything above the root there is one node at each place. -/
theorem unique (hf : f.Sound) (htree : f.isTree = true) (hr : f.graph.predecessors r = [])
    (h : Together f g r s x y) (h' : Together f g r s x y') : y = y' := by
  have hroot : ∀ {x : NodeId} {i : Nat}, (f.graph.successors x)[i]? ≠ some r := fun hx => by
    have := (hf.wellFormed.edge _ r).mp (List.mem_of_getElem? hx)
    simp [hr] at this
  induction h generalizing y' with
  | root =>
    cases h' with
    | root => rfl
    | step _ left _ => exact absurd left hroot
  | @step x y z w i _ left right ih =>
    cases h' with
    | root => exact absurd left hroot
    | @step x₂ y₂ _ _ j above' left' right' =>
      have hz := (hf.wellFormed.edge x z).mp (List.mem_of_getElem? left)
      have hz' := (hf.wellFormed.edge x₂ z).mp (List.mem_of_getElem? left')
      rw [predecessors_of_isTree hf htree hz, List.mem_singleton] at hz'
      obtain rfl := hz'
      obtain rfl := ih above'
      have hi : i < (f.graph.successors x₂).length := (List.getElem?_eq_some_iff.mp left).1
      obtain rfl : i = j :=
        (List.getElem?_inj hi (hf.wellFormed.outs_nodup x₂)).mp (left.trans left'.symm)
      exact Option.some.inj (right.symm.trans right')

/-- Every node has a partner, since every node lies below the root. -/
theorem exists_right (hf : f.Sound) (hv : f.Valid) (hr : f.root = .ok r)
    (hR : ∀ x y, R x y → List.Forall₂ R (f.graph.successors x) (g.graph.successors y))
    (hroot : R r s) :
    ∀ x, f.graph.contains x = true → ∃ y, Together f g r s x y := by
  refine hv.acyclic.from_source hf.wellFormed (root_eq_ok.mp hr) ⟨s, .root⟩ ?_
  rintro z - ⟨w, hzw⟩ x hx
  obtain ⟨i, hi⟩ := List.mem_iff_getElem?.mp hx
  have hlen := (hR _ _ (hzw.related hR hroot)).length_eq
  have hlt : i < (g.graph.successors w).length := hlen ▸ (List.getElem?_eq_some_iff.mp hi).1
  exact ⟨_, .step hzw hi (List.getElem?_eq_getElem hlt)⟩

/-- Nodes that are together are equal up to keys, and so is what is next to them. -/
theorem isomorphism {φ : NodeId → NodeId} (hf : f.Sound) (hft : f.isTree = true) (hg : g.Sound)
    (hgt : g.isTree = true) (hr : f.graph.predecessors r = []) (hs : g.graph.predecessors s = [])
    (hterm : ∀ x y, R x y → ∃ t u, f.graph.content? x = some t ∧ g.graph.content? y = some u ∧
      t.same u = true)
    (hR : ∀ x y, R x y → List.Forall₂ R (f.graph.successors x) (g.graph.successors y))
    (hroot : R r s)
    (hφ : ∀ x, f.graph.contains x = true → Together f g r s x (φ x))
    (hsurj : ∀ y, g.graph.contains y = true → ∃ x, Together f g r s x y) :
    Isomorphism (fun t u => t.same u = true) f.graph g.graph φ := by
  have hcontent : ∀ {x y}, Together f g r s x y → ∃ t u, f.graph.content? x = some t ∧
      g.graph.content? y = some u ∧ t.same u = true := fun h => hterm _ _ (h.related hR hroot)
  have hunique : ∀ {x y}, Together f g r s x y → φ x = y := fun h => by
    obtain ⟨t, -, ht, -⟩ := hcontent h
    exact (hφ _ (contains_of_content? ht)).unique hf hft hr h
  refine ⟨⟨fun x hx => ?_, fun x hx y hy heq => ?_, fun y hy => ?_⟩, fun x t ht => ?_,
    fun x hx => ?_, fun x hx => ?_⟩
  · obtain ⟨-, u, -, hu, -⟩ := hcontent (hφ x hx)
    exact contains_of_content? hu
  · exact (hφ x hx).symm.unique hg hgt hs (heq ▸ (hφ y hy).symm)
  · obtain ⟨x, hxy⟩ := hsurj y hy
    obtain ⟨t, -, ht, -⟩ := hcontent hxy
    exact ⟨x, contains_of_content? ht, hunique hxy⟩
  · obtain ⟨t', u, ht', hu, hsame⟩ := hcontent (hφ x (contains_of_content? ht))
    obtain rfl := Option.some.inj (ht.symm.trans ht')
    exact ⟨u, hu, hsame⟩
  · have hlen := (hR _ _ ((hφ x hx).related hR hroot)).length_eq
    refine List.ext_getElem (by rw [List.length_map, hlen]) fun i hi hi' => ?_
    rw [List.getElem_map]
    exact (hunique
      (.step (hφ x hx) (List.getElem?_eq_getElem _) (List.getElem?_eq_getElem hi))).symm
  · cases hφ x hx with
    | root => rw [hr, hunique .root, hs]; rfl
    | step above left right =>
      have hpre := predecessors_of_isTree hf hft
        ((hf.wellFormed.edge _ _).mp (List.mem_of_getElem? left))
      have hpre' := predecessors_of_isTree hg hgt
        ((hg.wellFormed.edge _ _).mp (List.mem_of_getElem? right))
      rw [hpre, hpre', List.map_singleton, hunique above]

end Together

/-- Trees are equal up to keys and shown names if their roots are related in a way that goes along
with the same terms and is passed on to operands. -/
theorem same_of_related {R : NodeId → NodeId → Prop} (hf : f.Sound) (hfv : f.Valid)
    (hft : f.isTree = true) (hg : g.Sound) (hgv : g.Valid) (hgt : g.isTree = true) {r s : NodeId}
    (hr : f.root = .ok r) (hs : g.root = .ok s)
    (hterm : ∀ x y, R x y → ∃ t u, f.graph.content? x = some t ∧ g.graph.content? y = some u ∧
      t.same u = true)
    (hR : ∀ x y, R x y → List.Forall₂ R (f.graph.successors x) (g.graph.successors y))
    (hroot : R r s) : f.same g = true := by
  have hright := Together.exists_right hf hfv hr hR hroot
  have hleft := Together.exists_right (R := fun y x => R x y) hg hgv hs
    (fun y x h => (hR x y h).flip) hroot
  choose! φ hφ using hright
  refine (isIsomorphic_iff hf.wellFormed hg.wellFormed hfv.acyclic).mpr ⟨φ, ?_⟩
  refine Together.isomorphism hf hft hg hgt (Valid.predecessors_root hr)
    (Valid.predecessors_root hs) hterm hR hroot hφ fun y hy => ?_
  obtain ⟨x, hyx⟩ := hleft y hy
  exact ⟨x, hyx.symm⟩

/-- Trees that stand for the same expression are equal up to keys and shown names. -/
theorem same_of_alike (hf : f.Sound) (hfv : f.Valid) (hft : f.isTree = true) (hg : g.Sound)
    (hgv : g.Valid) (hgt : g.isTree = true) {r s : NodeId} (hr : f.root = .ok r)
    (hs : g.root = .ok s) (hroot : Alike place f g r s) : f.same g = true :=
  same_of_related hf hfv hft hg hgv hgt hr hs (fun _ _ h => h.node.1) (fun _ _ h => h.node.2) hroot

/-! ## The text of a formula -/

/-- Whether the formula is a tree that can be told from its text, if every shown name stands for the
column that `place` gives for it. -/
def isClear (place : Nat → String → Nat) (f : Formula) : Bool :=
  f.isTree && match f.toExpr with
    | .ok e => e.legible place
    | .error _ => false

/-- A valid formula that can be told from its text. -/
structure Clear (place : Nat → String → Nat) (f : Formula) : Prop where
  sound : f.Sound
  valid : f.Valid
  clear : f.isClear place = true

namespace Clear

/-- The text of the formula is that of the legible expression for which its root stands. -/
theorem exists_expr (h : Clear place f) : ∃ root e, f.root = .ok root ∧ f.StandsFor root e ∧
    f.isTree = true ∧ e.legible place = true ∧ f.text = e.shown := by
  obtain ⟨root, hroot⟩ := h.valid.rooted
  obtain ⟨e, he⟩ := exists_standsFor h.sound h.valid root (Valid.contains_root hroot h.sound)
  have hexpr : f.toExpr = .ok e := by
    unfold Formula.toExpr
    rw [hroot]
    exact he.toExpr_eq h.sound h.valid
  have htext : f.text = e.shown := by
    unfold Formula.text
    rw [hroot]
    exact he.text_eq h.sound h.valid
  have hclear := h.clear
  rw [isClear, Bool.and_eq_true, hexpr] at hclear
  exact ⟨root, e, hroot, he, hclear.1, hclear.2, htext⟩

theorem exists_first (h : Clear place f) : ∃ c rest, f.text.toList = c :: rest ∧
    (Expr.Opening.of c).isSome = true := by
  obtain ⟨-, e, -, -, -, hlegible, htext⟩ := h.exists_expr
  obtain ⟨c, rest, hc, hopen⟩ := Expr.exists_opening hlegible
  exact ⟨c, rest, htext ▸ hc, by simp [hopen]⟩

end Clear

/-- A clear formula can be told from its text, up to keys and shown names. -/
theorem readable_text :
    Text.Readable text (Clear place) Expr.Follows (fun f g => f.same g = true) := by
  intro f g r s hf hg hr hs h
  obtain ⟨x, a, hx, ha, hft, hlegible, htext⟩ := hf.exists_expr
  obtain ⟨y, b, hy, hb, hgt, hlegible', htext'⟩ := hg.exists_expr
  rw [htext, htext'] at h
  obtain ⟨hab, hrs⟩ := Expr.readable_shown a b r s hlegible hlegible' hr hs h
  exact ⟨same_of_alike hf.sound hf.valid hft hg.sound hg.valid hgt hx hy
    ⟨a, b, ha, hb, hab, hlegible, hlegible'⟩, hrs⟩

end Formula

end Dataflow

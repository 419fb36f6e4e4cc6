import Dataflow.Proofs.Graph.Clone
import Dataflow.Proofs.Plan.Mirror
import Dataflow.Proofs.Plan.Valid

/-!
# Clones of plans

The clone of a plan differs from it in its keys only (`Twins`), and nothing that is asked of a plan
depends on keys: the order and the text are those of the original. The clone mirrors the whole plan,
so that requests for schemas go the same way on both and leave twins behind (`Twins.schema`).
-/

namespace Dataflow

namespace Plan

open Dataflow.Graph Pass

variable {p q p' q' : Plan} {φ : NodeId → NodeId} {id x : NodeId} {op : Operator}

/-- `φ` renames the operators of one plan to those of the other; the operators, their derived
schemas included, the edges and the supply of identities are the same. -/
structure Twins (φ : NodeId → NodeId) (p q : Plan) : Prop where
  wellFormed : p.graph.WellFormed
  graph : ExactCopy p.graph q.graph φ
  uids : q.uids = p.uids

namespace Twins

section Views

variable (h : Twins φ p q)

include h

theorem operator?_eq (hx : p.graph.contains x = true) : q.operator? (φ x) = p.operator? x :=
  h.graph.content?_eq hx

/-! ## The text -/

theorem idxOf_eq {order : List NodeId} (horder : ∀ z ∈ order, p.graph.contains z = true)
    (hx : p.graph.contains x = true) : (order.map φ).idxOf (φ x) = order.idxOf x := by
  induction order with
  | nil => rfl
  | cons a order ih =>
    have hiff : φ a = φ x ↔ a = x := ⟨h.graph.inj (horder a (by simp)) hx, congrArg φ⟩
    have ih := ih fun z hz => horder z (List.mem_cons_of_mem a hz)
    by_cases ha : a = x
    · subst ha
      rw [List.map_cons, List.idxOf_cons_self, List.idxOf_cons_self]
    · rw [List.map_cons, List.idxOf_cons_ne _ (mt hiff.mp ha), List.idxOf_cons_ne _ ha, ih]

theorem line_eq {order : List NodeId} (horder : ∀ z ∈ order, p.graph.contains z = true)
    {number : Nat} (hx : p.graph.contains x = true) :
    q.line (order.map φ) number (φ x) op = p.line order number x op := by
  have hinputs : (q.predecessors (φ x)).map (fun z => toString ((order.map φ).idxOf z)) =
      (p.predecessors x).map fun z => toString (order.idxOf z) := by
    rw [Plan.predecessors, h.graph.predecessors x hx, List.map_map]
    exact List.map_congr_left fun z hz => congrArg toString
      (h.idxOf_eq horder (h.wellFormed.source hz))
  unfold line
  rw [hinputs]

theorem linesOf_eq {order : List NodeId} (horder : ∀ z ∈ order, p.graph.contains z = true) :
    ∀ {l : List (NodeId × Nat)}, (∀ e ∈ l, p.graph.contains e.1 = true) →
      q.linesOf (order.map φ) (l.map fun e => (φ e.1, e.2)) = p.linesOf order l
  | [], _ => rfl
  | (x, number) :: l, hl => by
    have hx := hl (x, number) (by simp)
    obtain ⟨op, hop⟩ := exists_operator? hx
    rw [List.map_cons]
    unfold linesOf
    rw [operator_eq_ok.mpr hop, operator_eq_ok.mpr ((h.operator?_eq hx).trans hop),
      linesOf_eq horder fun e he => hl e (List.mem_cons_of_mem _ he)]
    simp only [Pass.except_ok_bind, h.line_eq horder hx]

/-- The text of a plan does not depend on keys. -/
theorem canonicalText_eq : q.canonicalText = p.canonicalText := by
  unfold canonicalText
  rw [h.graph.topologicalOrder_eq h.wellFormed]
  cases horder : p.graph.topologicalOrder with
  | error e => rfl
  | ok order =>
    have hmem : ∀ z ∈ order, p.graph.contains z = true := fun z =>
      ((topologicalOrder_spec h.wellFormed horder).2.1 z).mp
    have hzip : (order.map φ).zipIdx = order.zipIdx.map fun e => (φ e.1, e.2) := by
      rw [List.zipIdx_map]
      rfl
    change q.linesOf (order.map φ) (order.map φ).zipIdx = p.linesOf order order.zipIdx
    rw [hzip]
    exact h.linesOf_eq hmem fun e he => hmem e.1 (List.fst_mem_of_mem_zipIdx he)

end Views

/-! ## Schemas -/

/-- The whole plan is mirrored. -/
theorem mirrors (h : Twins φ p q) : Mirrors φ (fun x => p.graph.contains x = true) p q where
  wellFormed := h.wellFormed
  contains _ hx := hx
  closed _ _ _ hy := h.wellFormed.source hy
  inj _ _ hx hy := h.graph.inj hx hy
  operator _ hx := h.operator?_eq hx
  predecessors _ hx := h.graph.predecessors _ hx
  uids := h.uids

/-- Twins stay twins if nothing but what is derived changes, and is mirrored. -/
theorem of_mirrors (h : Twins φ p q) (hp : Alike p p') (hq : Alike q q')
    (hm : Mirrors φ (fun x => p.graph.contains x = true) p' q') : Twins φ p' q' := by
  refine ⟨hm.wellFormed, ⟨⟨?_, fun z c hc => ?_, fun z hz => ?_, fun z hz => ?_⟩, ?_⟩, hm.uids⟩
  · simp only [hp.contains, hq.contains]
    exact h.graph.bijective
  · have hz := contains_of_content? hc
    rw [hp.contains] at hz
    exact ⟨c, (hm.operator z hz).trans hc, rfl⟩
  · rw [hp.contains] at hz
    rw [hp.successors, hq.successors, h.graph.successors z hz]
  · rw [hp.contains] at hz
    exact hm.predecessors z hz
  · rw [hp.ids, hq.ids, h.graph.ids]

/-- A request for a schema ends alike on both plans: with the same schema, or with the same
error. -/
theorem schema (h : Twins φ p q) (hac : p.graph.Acyclic) (hid : p.graph.contains id = true) :
    EndsTogether (Twins φ) (Plan.schema id p) (Plan.schema (φ id) q) :=
  (h.mirrors.schema hac hid).imp
    (h.of_mirrors (alike_deriveOne.schema p .refl) (alike_deriveOne.schema q .refl))

/-- Requests in corresponding order give the same schemas, as far as they succeed. -/
theorem schemas : ∀ {l : List NodeId} {p q : Plan}, Twins φ p q → p.graph.Acyclic →
    (∀ x ∈ l, p.graph.contains x = true) →
    EndsTogether (Twins φ) (l.mapM Plan.schema p) ((l.map φ).mapM Plan.schema q)
  | [], p, q, h, _, _ => by
    rw [List.map_nil, List.mapM_nil]
    exact ⟨rfl, h⟩
  | x :: l, p, q, h, hac, hl => by
    rw [List.map_cons, List.mapM_cons, List.mapM_cons]
    refine (h.schema hac (hl x (by simp))).bind fun s p' q' hrun h' => ?_
    have halike : Alike p p' := alike_deriveOne.schema.of_ok .refl hrun
    have hl' : ∀ y ∈ l, p'.graph.contains y = true := fun y hy =>
      halike.contains.trans (hl y (List.mem_cons_of_mem x hy))
    exact (schemas h' (halike.acyclic hac) hl').bind fun ss p₂ q₂ _ h₂ => ⟨rfl, h₂⟩

end Twins

theorem clone_eq_ok {names : Renaming} {copy : Graph Operator}
    (h : p.graph.clone = .ok (names, copy)) :
    p.clone = .ok (names, { p with graph := copy }) := by
  unfold clone
  rw [h]
  rfl

/-- Cloning a graph gives a graph that differs from it in its keys only, and says which key became
which. So the clone of a plan without cycles has the text and the fingerprint of the plan, and
requests for schemas that correspond to each other end with the same schemas, or at the same
error. -/
theorem clone_exact :
    (∀ {α : Type} (g : Graph α), g.WellFormed → g.KeysBelow → ∃ names copy φ,
      g.clone = .ok (names, copy) ∧
        (∀ x : NodeId, names[x]? = if g.contains x = true then some (φ x) else none) ∧
        ExactCopy g copy φ ∧ copy.WellFormed ∧ copy.KeysBelow) ∧
    ∀ p : Plan, p.graph.WellFormed → p.graph.KeysBelow → p.graph.Acyclic → ∃ names q φ,
      p.clone = .ok (names, q) ∧
        (∀ x : NodeId, names[x]? = if p.graph.contains x = true then some (φ x) else none) ∧
        Twins φ p q ∧
        (∃ text, p.canonicalText = .ok text ∧ q.canonicalText = .ok text ∧
          p.fingerprint = .ok (.ofText text) ∧ q.fingerprint = .ok (.ofText text)) ∧
        ∀ order : List NodeId, (∀ x ∈ order, p.graph.contains x = true) →
          EndsTogether (Twins φ) (order.mapM schema p) ((order.map φ).mapM schema q) := by
  refine ⟨fun g hg hk => ?_, fun p hg hk hac => ?_⟩
  · obtain ⟨names, copy, φ, hrun, hnames, hexact, hkeys⟩ := clone_spec hg hk
    exact ⟨names, copy, φ, hrun, hnames, hexact, hexact.wellFormed hg, hkeys⟩
  · obtain ⟨names, copy, φ, hrun, hnames, hexact, -⟩ := clone_spec hg hk
    have htwins : Twins φ p { p with graph := copy } := ⟨hg, hexact, rfl⟩
    obtain ⟨text, htext⟩ := exists_canonicalText hg hac
    have htext' := htwins.canonicalText_eq.trans htext
    exact ⟨names, _, φ, clone_eq_ok hrun, hnames, htwins,
      ⟨text, htext, htext', fingerprint_of_canonicalText htext,
        fingerprint_of_canonicalText htext'⟩,
      fun order horder => htwins.schemas hac horder⟩

/-- A union whose first input was added last. -/
def lateUnion : Plan := made do
  let column : Field := { name := some "n", type := .long }
  let first ← append { operation := .load { location := "/a", declared := some [column] } } []
  let second ← append { operation := .load { location := "/b", declared := some [column] } } []
  append { operation := .union [] } [second, first]

theorem lateUnion_clone : lateUnion.graph.WellFormed ∧ lateUnion.graph.KeysBelow ∧
    lateUnion.graph.Acyclic ∧
    (∃ names copy φ, lateUnion.graph.clone = .ok (names, copy) ∧
      ExactCopy lateUnion.graph copy φ) ∧
    ∃ names q φ, lateUnion.clone = .ok (names, q) ∧
      EndsTogether (Twins φ) ([⟨2⟩].mapM schema lateUnion) ([φ ⟨2⟩].mapM schema q) := by
  have hwf : lateUnion.graph.WellFormed := by decide +kernel
  have hkeys : lateUnion.graph.KeysBelow := by decide +kernel
  have hac : lateUnion.graph.Acyclic := (hasCycle_eq_false_iff hwf).mp (by decide +kernel)
  obtain ⟨names, copy, φ, hrun, -, hexact, -⟩ := clone_exact.1 lateUnion.graph hwf hkeys
  obtain ⟨names', q, ψ, hrun', -, -, -, hschemas⟩ := clone_exact.2 lateUnion hwf hkeys hac
  exact ⟨hwf, hkeys, hac, ⟨names, copy, φ, hrun, hexact⟩, names', q, ψ, hrun',
    hschemas [⟨2⟩] (by decide +kernel)⟩

end Plan

end Dataflow

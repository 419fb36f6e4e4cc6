import Dataflow.Proofs.Formula.Planting
import Dataflow.Proofs.Formula.Undone
import Dataflow.Proofs.Formula.Value

/-!
# Conjuncts

The conjunctions at the top of an expression form a tree, at the leaves of which its conjuncts
stand. Splitting a conjunction takes off the top of the tree, and joining puts a new top on two of
them; what the formulas stand for is read off their expressions. A formula without sharing stays
one, and among such formulas the expression says all (`LaidOut.same`). So a formula that was laid
out as an expression is the same again after it was split and joined.
-/

namespace Dataflow

open Dataflow.Graph

namespace Expr

/-- What the conjunctions at the top of an expression join, from left to right. -/
def conjuncts : Expr → List Expr
  | .binary .and a b => a.conjuncts ++ b.conjuncts
  | e => [e]

/-- How many conjunctions there are at the top of an expression. -/
def conjunctions : Expr → Nat
  | .binary .and a b => a.conjunctions + b.conjunctions + 1
  | _ => 0

/-- There is one conjunct more than there are conjunctions. -/
theorem length_conjuncts (e : Expr) : e.conjuncts.length = e.conjunctions + 1 := by
  induction e with
  | binary op a b iha ihb =>
    cases op with
    | and =>
      rw [conjuncts, conjunctions, List.length_append, iha, ihb]
      omega
    | _ => rfl
  | _ => rfl

/-- An expression without a conjunction at the top is its only conjunct. -/
theorem conjuncts_eq_self {e : Expr} (h : e.conjunctions = 0) : e.conjuncts = [e] := by
  cases e with
  | binary op a b =>
    cases op with
    | and => simp [conjunctions] at h
    | _ => rfl
  | _ => rfl

theorem conjunctions_pos_iff {e : Expr} :
    0 < e.conjunctions ↔ ∃ a b, e = .binary .and a b := by
  constructor
  · intro h
    cases e with
    | binary op a b =>
      cases op with
      | and => exact ⟨a, b, rfl⟩
      | _ => exact absurd h (Nat.lt_irrefl 0)
    | _ => exact absurd h (Nat.lt_irrefl 0)
  · rintro ⟨a, b, rfl⟩
    exact Nat.succ_pos _

end Expr

namespace Formula

variable {f g a b c l r : Formula} {x y root rootA rootB : NodeId} {e e' : Expr}
  {φ ψ : NodeId → NodeId}

/-! ## Splitting and joining expressions -/

theorem exists_standsFor_root (h : f.Sound) (hv : f.Valid) (he : f.toExpr = .ok e) :
    ∃ root, f.root = .ok root ∧ f.StandsFor root e := by
  obtain ⟨root, hroot⟩ := hv.rooted
  exact ⟨root, hroot, (toExpr_eq_ok_iff h hv hroot).mp he⟩

/-- A formula is a conjunction if its expression is one. -/
theorem isConjunction_iff_toExpr (h : f.Sound) (hv : f.Valid) (he : f.toExpr = .ok e) :
    f.isConjunction = true ↔ ∃ x y, e = .binary .and x y := by
  obtain ⟨root, hroot, hstands⟩ := exists_standsFor_root h hv he
  rw [isConjunction_iff]
  constructor
  · rintro ⟨root', hroot', hand⟩
    obtain rfl := Except.ok.inj (hroot.symm.trans hroot')
    cases hstands with
    | binary node _ _ _ =>
      obtain rfl : _ = BinaryOp.and := by simpa using node.symm.trans hand
      exact ⟨_, _, rfl⟩
    | const node _ | column node _ | unary node _ _ =>
      rw [node] at hand
      cases hand
  · rintro ⟨x, y, rfl⟩
    cases hstands with
    | binary node _ _ _ => exact ⟨root, hroot, node⟩

/-- A part is read back as what its node stands for. -/
theorem toExpr_part (h : f.Sound) (hv : f.Valid) (hx : f.StandsFor x e)
    (hg : g.root = .ok (φ x)) (hc : Copied f.graph empty g.graph (f.graph.descendants x) φ) :
    g.toExpr = .ok e := by
  obtain ⟨hgs, hgv⟩ := sound_copy h hv hg hc
  have hself : x ∈ f.graph.descendants x := by
    cases hx with
    | const node _ | column node _ | unary node _ _ | binary node _ _ _ =>
      exact self_mem_descendants (contains_of_content? node)
  exact (toExpr_eq_ok_iff hgs hgv hg).mpr (hx.renamed hc.content? hc.successors
    (fun x hx y hy => h.wellFormed.mem_descendants hx hy) hself)

/-- Among the nodes below another one a node of a tree has at most one user. -/
theorem length_users_le_one (h : f.Sound) (htree : f.isTree = true) (x y : NodeId) :
    ((f.graph.descendants x).filter fun z => y ∈ f.graph.successors z).length ≤ 1 := by
  have hsub : (f.graph.descendants x).filter (fun z => y ∈ f.graph.successors z) ⊆
      f.graph.predecessors y := by
    intro z hz
    exact (h.wellFormed.edge z y).mp (of_decide_eq_true (List.mem_filter.mp hz).2)
  have hle := (List.subperm_of_subset (descendants_nodup.filter _) hsub).length_le
  refine Nat.le_trans hle ?_
  cases hy : f.graph.contains y with
  | true => simpa using List.all_eq_true.mp htree y ((h.wellFormed.mem_ids y).mpr hy)
  | false =>
    rw [predecessors_of_not_contains hy]
    exact Nat.zero_le 1

/-- A part of a tree is a tree. -/
theorem isTree_part (h : f.Sound) (htree : f.isTree = true)
    (hc : Copied f.graph empty g.graph (f.graph.descendants x) φ) : g.isTree = true := by
  refine List.all_eq_true.mpr fun y hy => decide_eq_true ?_
  rw [hc.ids] at hy
  obtain ⟨z, hz, rfl⟩ := List.mem_map.mp hy
  rw [hc.predecessors z hz, List.length_map]
  exact length_users_le_one h htree x z

/-- Splitting the formula of a conjunction gives formulas of its operands. -/
theorem exists_split (h : f.Sound) (hv : f.Valid) {d e : Expr}
    (he : f.toExpr = .ok (.binary .and d e)) : ∃ l r, f.splitConjunction = .ok (some (l, r)) ∧
      (l.Sound ∧ l.Valid ∧ l.toExpr = .ok d ∧ (f.isTree = true → l.isTree = true)) ∧
      r.Sound ∧ r.Valid ∧ r.toExpr = .ok e ∧ (f.isTree = true → r.isTree = true) := by
  obtain ⟨root, hroot, hstands⟩ := exists_standsFor_root h hv he
  cases hstands with
  | binary node outs left right =>
    obtain ⟨l, r, φ, ψ, hsplit, ⟨hl, hlroot⟩, hr, hrroot⟩ :=
      splitConjunction_copied h hv hroot node outs
    obtain ⟨hls, hlv⟩ := sound_copy h hv hlroot hl
    obtain ⟨hrs, hrv⟩ := sound_copy h hv hrroot hr
    exact ⟨l, r, hsplit,
      ⟨hls, hlv, toExpr_part h hv left hlroot hl, fun htree => isTree_part h htree hl⟩,
      hrs, hrv, toExpr_part h hv right hrroot hr, fun htree => isTree_part h htree hr⟩

namespace Conjoined

variable (h : Conjoined c a b rootA rootB φ ψ)

include h

theorem toExpr_eq (ha : a.Sound) (hva : a.Valid) (hb : b.Sound) (hvb : b.Valid)
    (hrootA : a.root = .ok rootA) (hrootB : b.root = .ok rootB) {d e : Expr}
    (hd : a.toExpr = .ok d) (he : b.toExpr = .ok e) : c.toExpr = .ok (.binary .and d e) := by
  have hvc : c.Valid := ⟨⟨_, h.root_eq⟩, h.acyclic, fun _ _ => h.arity hva hvb⟩
  have hA := (toExpr_eq_ok_iff ha hva hrootA).mp hd
  have hB := (toExpr_eq_ok_iff hb hvb hrootB).mp he
  refine (toExpr_eq_ok_iff h.sound hvc h.root_eq).mpr (.binary h.content? h.operands ?_ ?_)
  · exact hA.renamed h.left_content? h.left_successors
      (fun x hx y hy => ha.wellFormed.mem_descendants hx hy)
      (self_mem_descendants (Valid.contains_root hrootA ha))
  · exact hB.renamed h.right_content? h.right_successors
      (fun x hx y hy => hb.wellFormed.mem_descendants hx hy)
      (self_mem_descendants (Valid.contains_root hrootB hb))

/-- The roots of the parts get their first user, and nothing else gets one. -/
theorem isTree (ha : a.Sound) (hb : b.Sound) (hrootA : a.root = .ok rootA)
    (hrootB : b.root = .ok rootB) (hta : a.isTree = true) (htb : b.isTree = true) :
    c.isTree = true := by
  have htop : ∀ {f : Formula} {root : NodeId}, f.Sound → f.root = .ok root →
      (f.graph.descendants root).filter (fun z => root ∈ f.graph.successors z) = [] := by
    intro f root hf hroot
    refine List.filter_eq_nil_iff.mpr fun z _ hz => ?_
    have hz := (hf.wellFormed.edge z root).mp (of_decide_eq_true hz)
    rw [Valid.predecessors_root hroot] at hz
    cases hz
  refine List.all_eq_true.mpr fun y hy => decide_eq_true ?_
  rcases h.mem_cases hy with rfl | ⟨x, hx, rfl⟩ | ⟨x, hx, rfl⟩
  · rw [h.users]
    exact Nat.zero_le 1
  · rw [h.left_predecessors x hx, List.length_append, List.length_map]
    by_cases hroot : x = rootA
    · rw [hroot, htop ha hrootA, if_pos rfl]
      exact Nat.le_refl 1
    · rw [if_neg hroot]
      exact length_users_le_one ha hta rootA x
  · rw [h.right_predecessors x hx, List.length_append, List.length_map]
    by_cases hroot : x = rootB
    · rw [hroot, htop hb hrootB, if_pos rfl]
      exact Nat.le_refl 1
    · rw [if_neg hroot]
      exact length_users_le_one hb htb rootB x

end Conjoined

/-! ## Formulas laid out as expressions -/

/-- The formula has a node for each part of the expression: it is a tree that stands for it. -/
structure LaidOut (f : Formula) (e : Expr) : Prop where
  sound : f.Sound
  valid : f.Valid
  isTree : f.isTree = true
  toExpr : f.toExpr = .ok e

theorem laidOut_ofExpr (hroom : e.size < 2 ^ 64) (hof : ofExpr e = .ok f) : LaidOut f e := by
  obtain ⟨f', hof', hvalid, -, hexpr⟩ := exists_ofExpr hroom (names_of_ofExpr hof)
  obtain rfl := Except.ok.inj (hof'.symm.trans hof)
  have hsound := sound_ofExpr hroom hof
  exact ⟨hsound, (validate_eq_ok hsound).mp hvalid, isTree_ofExpr hroom hof, hexpr⟩

/-- The weight of a formula is the size of the expression that it stands for. -/
theorem StandsFor.weightAt_eq (h : f.Sound) (hv : f.Valid) (hx : f.StandsFor x e) :
    f.weightAt x = e.size := by
  have heq : ∀ {x t}, f.graph.content? x = some t →
      f.weightAt x = 1 + ((f.graph.successors x).map f.weightAt).sum := fun ht =>
    compute_eq h.wellFormed hv.acyclic ht
  induction hx with
  | const node outs => rw [heq node, outs]; rfl
  | column node outs => rw [heq node, outs]; rfl
  | unary node outs _ ih =>
    rw [heq node, outs, List.map_singleton, ih]
    rfl
  | binary node outs _ _ iha ihb =>
    rw [heq node, outs, List.map_cons, List.map_singleton, iha, ihb, Expr.size]
    simp [Nat.add_assoc]

namespace LaidOut

theorem weight_eq (h : LaidOut f e) : f.weight = e.size := by
  obtain ⟨root, hroot, hstands⟩ := exists_standsFor_root h.sound h.valid h.toExpr
  rw [weight_of_root hroot, hstands.weightAt_eq h.sound h.valid]

theorem split {d e : Expr} (h : LaidOut f (.binary .and d e)) :
    ∃ l r, f.splitConjunction = .ok (some (l, r)) ∧ LaidOut l d ∧ LaidOut r e := by
  obtain ⟨l, r, hsplit, ⟨hls, hlv, hle, hlt⟩, hrs, hrv, hre, hrt⟩ :=
    exists_split h.sound h.valid h.toExpr
  exact ⟨l, r, hsplit, ⟨hls, hlv, hlt h.isTree, hle⟩, ⟨hrs, hrv, hrt h.isTree, hre⟩⟩

theorem join {d e : Expr} (hl : LaidOut l d) (hr : LaidOut r e)
    (hroom : (Expr.binary .and d e).size < 2 ^ 64) :
    ∃ c, l.conjunction r = .ok c ∧ LaidOut c (.binary .and d e) := by
  have hconj : Conjoinable l r := by
    refine conjoinable_of_weight hl.sound hl.valid hr.sound hr.valid ?_
    rw [hl.weight_eq, hr.weight_eq]
    exact hroom
  obtain ⟨rootL, hrootL⟩ := hl.valid.rooted
  obtain ⟨rootR, hrootR⟩ := hr.valid.rooted
  obtain ⟨c, φ, ψ, hrun, hc⟩ := exists_conjoined hl.sound hl.valid hr.sound hr.valid hrootL hrootR
    (hconj rootL rootR hrootL hrootR)
  exact ⟨c, hrun, {
    sound := hc.sound
    valid := ⟨⟨_, hc.root_eq⟩, hc.acyclic, fun _ _ => hc.arity hl.valid hr.valid⟩
    isTree := hc.isTree hl.sound hr.sound hrootL hrootR hl.isTree hr.isTree
    toExpr := hc.toExpr_eq hl.sound hl.valid hr.sound hr.valid hrootL hrootR hl.toExpr hr.toExpr }⟩

/-- Formulas laid out as the same expression are equal up to keys. -/
theorem same (hf : LaidOut f e) (hg : LaidOut g e) (hnan : g.hasNaN = false) :
    f.same g = true := by
  obtain ⟨r, hr, hrf⟩ := exists_standsFor_root hf.sound hf.valid hf.toExpr
  obtain ⟨s, hs, hsg⟩ := exists_standsFor_root hg.sound hg.valid hg.toExpr
  have hself := (hasNaN_eq_false_iff hg.sound).mp hnan
  -- nodes at the same place stand for the same expression
  refine same_of_related (R := fun x y => ∃ d, f.StandsFor x d ∧ g.StandsFor y d) hf.sound hf.valid
    hf.isTree hg.sound hg.valid hg.isTree hr hs ?_ ?_ ⟨e, hrf, hsg⟩
  · rintro x y ⟨d, hx, hy⟩
    cases hx with
    | const node _ =>
      cases hy with
      | const node' _ => exact ⟨_, _, node, node', Term.same_self (hself _ _ node')⟩
    | column node _ =>
      cases hy with
      | column node' _ => exact ⟨_, _, node, node', Term.same_self (hself _ _ node')⟩
    | unary node _ _ =>
      cases hy with
      | unary node' _ _ => exact ⟨_, _, node, node', Term.same_self (hself _ _ node')⟩
    | binary node _ _ _ =>
      cases hy with
      | binary node' _ _ _ => exact ⟨_, _, node, node', Term.same_self (hself _ _ node')⟩
  · rintro x y ⟨d, hx, hy⟩
    cases hx with
    | const _ outs =>
      cases hy with
      | const _ outs' => rw [outs, outs']; exact .nil
    | column _ outs =>
      cases hy with
      | column _ outs' => rw [outs, outs']; exact .nil
    | unary _ outs operand =>
      cases hy with
      | unary _ outs' operand' =>
        rw [outs, outs']
        exact .cons ⟨_, operand, operand'⟩ .nil
    | binary _ outs left right =>
      cases hy with
      | binary _ outs' left' right' =>
        rw [outs, outs']
        exact .cons ⟨_, left, left'⟩ (.cons ⟨_, right, right'⟩ .nil)

end LaidOut

end Formula

end Dataflow

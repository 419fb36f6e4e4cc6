import Dataflow.Proofs.Formula.Building
import Dataflow.Proofs.Formula.Conjunction
import Dataflow.Proofs.Formula.Tree

/-!
# Expressions laid out in graphs

To lay out an expression is to add a node for it, and then to lay out its operands one after the
other and to connect each of them behind those before it. `Planted` says how far this has come:
what was there before is as it was, and the operands connected so far stand for their expressions.
It holds of a node that was just added, and goes on to hold when one more operand is laid out and
connected (`Planted.graft`).

Keys are handed out in ascending order. So the old nodes are those below the first new key, no node
is an operand of itself by any detour, and what hangs below an operand does not change when that is
connected.
-/

namespace Dataflow

open Dataflow.Graph (Kept)
open Dataflow.Expr (Inputs)

/-! ## Expressions without names -/

namespace Expr

variable {inputs : Inputs} {operator : String} {e r : Expr} {t : Term} {es : List Expr}

/-- The names that stand for columns, from left to right. -/
def names : Expr → List String
  | .const _ | .column _ _ _ => []
  | .named _ name => [name]
  | .unary _ e => e.names
  | .binary _ a b => a.names ++ b.names

theorem names_resolve : ∀ {e r : Expr}, e.resolve inputs operator = .ok r → r.names = []
  | .const _, r, h | .column _ _ _, r, h => by
    obtain rfl := Except.ok.inj h
    rfl
  | .named input name, r, h => by
    unfold resolve resolveName at h
    split at h
    · obtain rfl := Except.ok.inj h
      rfl
    · split at h
      · obtain rfl := Except.ok.inj h
        rfl
      · cases h
  | .unary op e, r, h => by
    obtain ⟨a, ha, h⟩ := Pass.except_bind_eq_ok.mp h
    obtain rfl := Except.ok.inj h
    rw [names, names_resolve ha]
  | .binary op x y, r, h => by
    obtain ⟨a, ha, h⟩ := Pass.except_bind_eq_ok.mp h
    obtain ⟨b, hb, h⟩ := Pass.except_bind_eq_ok.mp h
    obtain rfl := Except.ok.inj h
    rw [names, names_resolve ha, names_resolve hb]
    rfl

/-- Where there is no name, there is nothing to replace. -/
theorem resolve_eq_self : ∀ {r : Expr}, r.names = [] → r.resolve inputs operator = .ok r
  | .const _, _ | .column _ _ _, _ => rfl
  | .named _ _, h => by cases h
  | .unary op e, h => by
    rw [resolve, resolve_eq_self (r := e) h]
    rfl
  | .binary op a b, h => by
    obtain ⟨ha, hb⟩ := List.append_eq_nil_iff.mp h
    rw [resolve, resolve_eq_self ha, resolve_eq_self hb]
    rfl

/-- The term of an expression and its operands; a name has none. -/
def parts? : Expr → Option (Term × List Expr)
  | .const v => some (.const v, [])
  | .column input i name => some (.column input i name, [])
  | .named _ _ => none
  | .unary op e => some (.unary op, [e])
  | .binary op a b => some (.binary op, [a, b])

theorem length_of_parts? (h : e.parts? = some (t, es)) : es.length = t.arity := by
  cases e with
  | named input name => cases h
  | _ =>
    obtain ⟨rfl, rfl⟩ := Prod.mk.inj (Option.some.inj h)
    rfl

theorem size_of_parts? (h : e.parts? = some (t, es)) : e.size = 1 + (es.map size).sum := by
  cases e with
  | named input name => cases h
  | binary op a b =>
    obtain ⟨rfl, rfl⟩ := Prod.mk.inj (Option.some.inj h)
    simp [size, Nat.add_assoc]
  | _ =>
    obtain ⟨rfl, rfl⟩ := Prod.mk.inj (Option.some.inj h)
    simp [size]

end Expr

namespace Formula

variable {f f' : Formula} {g g' g₁ g₂ : Graph Term} {n m : Nat} {id a x : NodeId} {t t' : Term}
  {e : Expr} {es es' : List Expr} {name : String} {rest : List String}

theorem StandsFor.of_parts (h : e.parts? = some (t, es)) (ht : f.graph.content? x = some t)
    (hes : List.Forall₂ f.StandsFor (f.graph.successors x) es) : f.StandsFor x e := by
  cases e with
  | named input name => cases h
  | const v =>
    obtain ⟨rfl, rfl⟩ := Prod.mk.inj (Option.some.inj h)
    exact .const ht (List.forall₂_nil_right_iff.mp hes)
  | column input i name =>
    obtain ⟨rfl, rfl⟩ := Prod.mk.inj (Option.some.inj h)
    exact .column ht (List.forall₂_nil_right_iff.mp hes)
  | unary op e =>
    obtain ⟨rfl, rfl⟩ := Prod.mk.inj (Option.some.inj h)
    obtain ⟨y, ys, hy, hys, hsuc⟩ := List.forall₂_cons_right_iff.mp hes
    obtain rfl := List.forall₂_nil_right_iff.mp hys
    exact .unary ht hsuc hy
  | binary op a b =>
    obtain ⟨rfl, rfl⟩ := Prod.mk.inj (Option.some.inj h)
    obtain ⟨y, ys, hy, hys, hsuc⟩ := List.forall₂_cons_right_iff.mp hes
    obtain ⟨z, zs, hz, hzs, rfl⟩ := List.forall₂_cons_right_iff.mp hys
    obtain rfl := List.forall₂_nil_right_iff.mp hzs
    exact .binary ht hsuc hy hz

/-- What a node stands for depends only on the nodes from its key on, if operands come later. -/
theorem StandsFor.congr {k : Nat} (h : f.StandsFor x e)
    (hdown : ∀ x, k ≤ x.val.toNat → ∀ y ∈ f.graph.successors x, k ≤ y.val.toNat)
    (hsame : ∀ x, k ≤ x.val.toNat → f.graph.contains x = true →
      f'.graph.content? x = f.graph.content? x ∧ f'.graph.successors x = f.graph.successors x)
    (hx : k ≤ x.val.toNat) : f'.StandsFor x e := by
  induction h with
  | const node outs =>
    obtain ⟨hc, hs⟩ := hsame _ hx (Graph.contains_of_content? node)
    exact .const (hc.trans node) (hs.trans outs)
  | column node outs =>
    obtain ⟨hc, hs⟩ := hsame _ hx (Graph.contains_of_content? node)
    exact .column (hc.trans node) (hs.trans outs)
  | unary node outs _ ih =>
    obtain ⟨hc, hs⟩ := hsame _ hx (Graph.contains_of_content? node)
    exact .unary (hc.trans node) (hs.trans outs) (ih (hdown _ hx _ (by simp [outs])))
  | binary node outs _ _ iha ihb =>
    obtain ⟨hc, hs⟩ := hsame _ hx (Graph.contains_of_content? node)
    exact .binary (hc.trans node) (hs.trans outs) (iha (hdown _ hx _ (by simp [outs])))
      (ihb (hdown _ hx _ (by simp [outs])))

/-! ## Laying out -/

/-- How the graph `g'` came from `g`, in which the next key was `n`: the node `id` was added with
its term, and the expressions were laid out below it as its operands. -/
structure Planted (n : Nat) (g g' : Graph Term) (id : NodeId) (t : Term) (es : List Expr) :
    Prop where
  key : id.val.toNat = n
  old : ∀ x, x.val.toNat < n → Graph.SameAt g g' x
  term : g'.content? id = some t
  top : g'.predecessors id = []
  operands : List.Forall₂ (StandsFor ⟨g'⟩) (g'.successors id) es
  below : ∀ x, n < x.val.toNat → g'.contains x = true → (g'.predecessors x).length = 1
  arity : ∀ x t, n < x.val.toNat → g'.content? x = some t → (g'.successors x).length = t.arity
  down : ∀ x, n ≤ x.val.toNat → ∀ y ∈ g'.successors x, x.val.toNat < y.val.toNat
  length : g'.ids.length = g.ids.length + 1 + (es.map Expr.size).sum

/-- A node without operands, just added. -/
theorem planted_add (h : Kept n g) (t : Term) : Planted n g (g.add t).2 (g.add t).1 t [] := by
  have hfresh := Graph.fresh_of_keysBelow h.wellFormed h.keysBelow
  -- from the next key on the graph was empty
  have hempty : ∀ x : NodeId, n ≤ x.val.toNat → g.contains x = false := by
    intro x hx
    by_contra hc
    exact absurd (h.key_lt (by simpa using hc)) (Nat.not_lt.mpr hx)
  have hnot : ∀ x : NodeId, n < x.val.toNat → (g.add t).2.contains x = false := by
    intro x hx
    rw [← Graph.content?_isSome, Graph.content?_add, if_neg, Graph.content?_isSome]
    · exact hempty x (Nat.le_of_lt hx)
    · rintro rfl
      exact Nat.lt_irrefl _ (h.nextKey ▸ hx)
  refine ⟨h.nextKey, ?_, ?_, ?_, ?_, ?_, ?_, ?_, ?_⟩
  · intro x hx
    refine ⟨?_, Graph.successors_add, Graph.predecessors_add⟩
    rw [Graph.content?_add, if_neg]
    rintro rfl
    exact Nat.lt_irrefl _ (h.nextKey ▸ hx)
  · exact Graph.content?_add.trans (if_pos rfl)
  · rw [Graph.predecessors_add]
    exact Graph.predecessors_of_not_contains hfresh
  · rw [Graph.successors_add, Graph.add_fst, Graph.successors_of_not_contains hfresh]
    exact .nil
  · intro x hx hc
    rw [hnot x hx] at hc
    cases hc
  · intro x t' hx hc
    have hcontains := Graph.contains_of_content? hc
    rw [hnot x hx] at hcontains
    cases hcontains
  · intro x hx y hy
    rw [Graph.successors_add, Graph.successors_of_not_contains (hempty x hx)] at hy
    cases hy
  · simp

namespace Planted

/-- The node at which the new keys begin has the first of them. -/
theorem eq_of_key (hp : Planted n g g' id t es) (hx : x.val.toNat = n) : x = id :=
  NodeId.eq_of_toNat (hx.trans hp.key.symm)

/-- With its operands complete, the first of the new nodes has as many as its term needs too. -/
theorem arity_of_parts (hp : Planted n g g' id t es) (hparts : e.parts? = some (t, es)) (x : NodeId)
    (u : Term) (hx : n ≤ x.val.toNat) (hu : g'.content? x = some u) :
    (g'.successors x).length = u.arity := by
  rcases Nat.lt_or_eq_of_le hx with hlt | heq
  · exact hp.arity x u hlt hu
  · obtain rfl := hp.eq_of_key heq.symm
    obtain rfl := Option.some.inj (hp.term.symm.trans hu)
    exact hp.operands.length_eq.trans (Expr.length_of_parts? hparts)

/-- The operand was laid out beside what was there, and can be connected. -/
theorem exists_connect (hp : Planted n g g₁ id t es) (hk : Kept m g₁)
    (hp' : Planted m g₁ g₂ a t' es') : n < m ∧ id ≠ a ∧ ∃ g₃, g₂.connect id a = .ok g₃ := by
  have hid : g₁.contains id = true := Graph.contains_of_content? hp.term
  have hnm : n < m := hp.key ▸ hk.key_lt hid
  have hsame := hp'.old id (hp.key ▸ hnm)
  have hne : id ≠ a := by
    rintro rfl
    exact absurd (hp.key.symm.trans hp'.key) (Nat.ne_of_lt hnm)
  have hnew : a ∉ g₂.successors id := by
    rw [hsame.successors]
    intro hmem
    have hlt := hk.key_lt (hk.wellFormed.target hmem)
    rw [hp'.key] at hlt
    exact Nat.lt_irrefl m hlt
  exact ⟨hnm, hne, _, Graph.connectAt_eq_ok.mpr ⟨⟨hsame.contains.trans hid,
    Graph.contains_of_content? hp'.term, hne, hnew, Nat.le_refl _, Nat.le_refl _⟩, rfl⟩⟩

/-- What was there before the operand is as it was, but for the node itself. -/
theorem before_graft {g₃ : Graph Term} (hp' : Planted m g₁ g₂ a t' es')
    (hc : g₂.connect id a = .ok g₃) (hx : x.val.toNat < m) (hxid : x ≠ id) :
    Graph.SameAt g₁ g₃ x := by
  obtain ⟨hcontent, hsuc, hpre, -⟩ := Graph.connect_views hc
  have hxa : x ≠ a := by
    rintro rfl
    exact absurd hp'.key (Nat.ne_of_lt hx)
  have hlast : Graph.SameAt g₂ g₃ x :=
    ⟨hcontent x, (hsuc x).trans (if_neg hxid), (hpre x).trans (if_neg hxa)⟩
  exact (hp'.old x hx).trans hlast

section Graft

variable {g₃ : Graph Term} (hp : Planted n g g₁ id t es) (hk : Kept m g₁)
  (hp' : Planted m g₁ g₂ a t' es') (hc : g₂.connect id a = .ok g₃)

include hp hk hp' hc

/-- The operand has got an input, and what is below it is as it was laid out. -/
theorem behind_graft (hx : m ≤ x.val.toNat) : g₃.content? x = g₂.content? x ∧
    g₃.successors x = g₂.successors x ∧
    g₃.predecessors x = if x = a then g₂.predecessors a ++ [id] else g₂.predecessors x := by
  obtain ⟨hcontent, hsuc, hpre, -⟩ := Graph.connect_views hc
  obtain ⟨hnm, -, -⟩ := hp.exists_connect hk hp'
  refine ⟨hcontent x, (hsuc x).trans (if_neg ?_), hpre x⟩
  rintro rfl
  exact absurd hx (Nat.not_le.mpr (hp.key ▸ hnm))

/-- The node keeps its place, and the operand stands behind its other operands. -/
theorem node_graft : g₃.content? id = some t ∧ g₃.predecessors id = [] ∧
    g₃.successors id = g₁.successors id ++ [a] := by
  obtain ⟨hcontent, hsuc, hpre, -⟩ := Graph.connect_views hc
  obtain ⟨hnm, hne, -⟩ := hp.exists_connect hk hp'
  have hold := hp'.old id (hp.key ▸ hnm)
  refine ⟨?_, ?_, ?_⟩
  · rw [hcontent, hold.content, hp.term]
  · rw [hpre, if_neg hne, hold.predecessors, hp.top]
  · rw [hsuc, if_pos rfl, hold.successors]

/-- The operands so far lie behind the node, the only one whose edges have changed. -/
theorem operands_graft (hparts : e.parts? = some (t', es')) :
    List.Forall₂ (StandsFor ⟨g₃⟩) (g₁.successors id ++ [a]) (es ++ [e]) := by
  refine List.rel_append ?_ (.cons ?_ .nil)
  · obtain ⟨hlen, hzip⟩ := List.forall₂_iff_zip.mp hp.operands
    refine List.forall₂_iff_zip.mpr ⟨hlen, fun {y o} hyo => ?_⟩
    have hy : n + 1 ≤ y.val.toNat :=
      hp.key ▸ hp.down id (Nat.le_of_eq hp.key.symm) y (List.of_mem_zip hyo).1
    refine (hzip hyo).congr (k := n + 1) ?_ ?_ hy
    · intro x hx z hz
      exact Nat.le_trans hx (Nat.le_of_lt (hp.down x (Nat.le_of_succ_le hx) z hz))
    · intro x hx hcx
      have hsame := hp'.before_graft hc (hk.key_lt hcx) (NodeId.ne_of_lt hp.key hx)
      exact ⟨hsame.content, hsame.successors⟩
  · refine (StandsFor.of_parts hparts hp'.term hp'.operands).congr (k := m) ?_ ?_
      (Nat.le_of_eq hp'.key.symm)
    · intro x hx z hz
      exact Nat.le_trans hx (Nat.le_of_lt (hp'.down x hx z hz))
    · intro x hx _
      obtain ⟨hcontent, hsuc, -⟩ := hp.behind_graft hk hp' hc hx
      exact ⟨hcontent, hsuc⟩

/-- One more operand was laid out and is connected. Behind the node there is what was below it
before, and from the key of the operand on what is below the operand. -/
theorem graft (hparts : e.parts? = some (t', es')) : Planted n g g₃ id t (es ++ [e]) := by
  obtain ⟨hnm, -, -⟩ := hp.exists_connect hk hp'
  obtain ⟨hterm, htop, houts⟩ := hp.node_graft hk hp' hc
  have hbefore : ∀ {x : NodeId}, x.val.toNat < m → x ≠ id → Graph.SameAt g₁ g₃ x :=
    hp'.before_graft hc
  have hbehind := fun {x : NodeId} => hp.behind_graft hk hp' hc (x := x)
  refine ⟨hp.key, ?_, hterm, htop, houts ▸ hp.operands_graft hk hp' hc hparts, ?_, ?_, ?_, ?_⟩
  · intro x hx
    have hxid : x ≠ id := by
      rintro rfl
      exact absurd hp.key (Nat.ne_of_lt hx)
    exact (hp.old x hx).trans (hbefore (Nat.lt_trans hx hnm) hxid)
  · -- what is behind the node is an operand, and the new one has just become one
    intro x hx hcx
    rcases Nat.lt_or_ge x.val.toNat m with hlt | hge
    · have hsame := hbefore hlt (NodeId.ne_of_lt hp.key hx)
      rw [hsame.predecessors]
      exact hp.below x hx (hsame.contains.symm.trans hcx)
    · obtain ⟨hcontent, -, hpre⟩ := hbehind hge
      rw [hpre]
      split
      · rw [hp'.top]
        rfl
      · rename_i hxa
        refine hp'.below x (Nat.lt_of_le_of_ne hge fun heq => hxa (hp'.eq_of_key heq.symm)) ?_
        rw [← Graph.content?_isSome, ← hcontent, Graph.content?_isSome, hcx]
  · intro x u hx hu
    rcases Nat.lt_or_ge x.val.toNat m with hlt | hge
    · have hsame := hbefore hlt (NodeId.ne_of_lt hp.key hx)
      rw [hsame.successors]
      exact hp.arity x u hx (hsame.content.symm.trans hu)
    · obtain ⟨hcontent, hsuc, -⟩ := hbehind hge
      rw [hsuc]
      exact hp'.arity_of_parts hparts x u hge (hcontent.symm.trans hu)
  · -- edges lead to later keys: the new one leads past all that was there
    intro x hx y hy
    by_cases hxid : x = id
    · subst hxid
      rw [houts] at hy
      rcases List.mem_append.mp hy with hy | hy
      · exact hp.down x hx y hy
      · rw [List.mem_singleton.mp hy, hp.key, hp'.key]
        exact hnm
    rcases Nat.lt_or_ge x.val.toNat m with hlt | hge
    · rw [(hbefore hlt hxid).successors] at hy
      exact hp.down x hx y hy
    · rw [(hbehind hge).2.1] at hy
      exact hp'.down x hge y hy
  · obtain ⟨-, -, -, hids⟩ := Graph.connect_views hc
    rw [hids, hp'.length, hp.length, List.map_append, List.sum_append, List.map_singleton,
      List.sum_singleton, Expr.size_of_parts? hparts]
    omega

end Graft

end Planted

/-- The expression can be laid out in the graph, in which the next key is `n`. -/
def Takes (e : Expr) (n : Nat) (g : Graph Term) : Prop :=
  ∃ id g' t es, plant e g = .ok (id, g') ∧ e.parts? = some (t, es) ∧ Planted n g g' id t es

/-- Laying out one more operand and connecting it. -/
theorem Planted.extend (hp : Planted n g g₁ id t es) (hk : Kept m g₁)
    (hroom : m + e.size < 2 ^ 64) (he : Takes e m g₁) :
    ∃ a g₂ g₃, plant e g₁ = .ok (a, g₂) ∧ Graph.orError (g₂.connect id a) = .ok g₃ ∧
      Planted n g g₃ id t (es ++ [e]) ∧ Kept (m + e.size) g₃ := by
  obtain ⟨a, g₂, t', es', hrun, hparts, hp'⟩ := he
  obtain ⟨-, -, g₃, hc⟩ := hp.exists_connect hk hp'
  have hc' := Graph.orError_eq_ok.mpr hc
  exact ⟨a, g₂, g₃, hrun, hc', hp.graft hk hp' hc hparts,
    kept_of_connect (kept_of_plant hk hroom hrun) hc'⟩

/-- Without names, and while there are keys, every expression can be laid out. -/
theorem takes_of_names : ∀ {e : Expr} {n : Nat} {g : Graph Term}, Kept n g →
    n + e.size < 2 ^ 64 → e.names = [] → Takes e n g
  | .const v, n, g, h, _, _ => ⟨_, _, _, _, rfl, rfl, planted_add h (.const v)⟩
  | .column input i name, n, g, h, _, _ =>
    ⟨_, _, _, _, rfl, rfl, planted_add h (.column input i name)⟩
  | .named input name, n, g, h, _, hnames => by cases hnames
  | .unary op e, n, g, h, hroom, hnames => by
    rw [Expr.size, ← Nat.add_assoc] at hroom
    have hk := h.add (by omega) (.unary op)
    obtain ⟨a, g₂, g₃, hrun, hc, hp, -⟩ :=
      (planted_add h (.unary op)).extend hk hroom (takes_of_names hk hroom hnames)
    refine ⟨_, g₃, _, _, ?_, rfl, hp⟩
    unfold plant
    dsimp only
    rw [hrun, Pass.except_ok_bind, hc]
    rfl
  | .binary op x y, n, g, h, hroom, hnames => by
    obtain ⟨hx, hy⟩ := List.append_eq_nil_iff.mp hnames
    rw [Expr.size, ← Nat.add_assoc, ← Nat.add_assoc] at hroom
    have hk := h.add (by omega) (.binary op)
    obtain ⟨a, g₂, g₃, hrun, hc, hp, hk₃⟩ :=
      (planted_add h (.binary op)).extend hk (by omega) (takes_of_names hk (by omega) hx)
    obtain ⟨b, g₄, g₅, hrun', hc', hp', -⟩ :=
      hp.extend hk₃ hroom (takes_of_names hk₃ hroom hy)
    refine ⟨_, g₅, _, _, ?_, rfl, hp'⟩
    unfold plant
    dsimp only
    rw [hrun, Pass.except_ok_bind, hc, Pass.except_ok_bind, hrun', Pass.except_ok_bind, hc']
    rfl

/-- Whatever room there is, nothing comes of an expression with a name. -/
theorem names_of_plant : ∀ {e : Expr} {g g' : Graph Term} {id : NodeId},
    plant e g = .ok (id, g') → e.names = []
  | .const _, _, _, _, _ | .column _ _ _, _, _, _, _ => rfl
  | .named _ _, _, _, _, h => by cases h
  | .unary op e, g, g', id, h => by
    unfold plant at h
    obtain ⟨⟨a, g₂⟩, hrun, -⟩ := Pass.except_bind_eq_ok.mp h
    rw [Expr.names, names_of_plant hrun]
  | .binary op x y, g, g', id, h => by
    unfold plant at h
    obtain ⟨⟨a, g₂⟩, hrun, h⟩ := Pass.except_bind_eq_ok.mp h
    obtain ⟨g₃, -, h⟩ := Pass.except_bind_eq_ok.mp h
    obtain ⟨⟨b, g₄⟩, hrun', -⟩ := Pass.except_bind_eq_ok.mp h
    rw [Expr.names, names_of_plant hrun, names_of_plant hrun']
    rfl

/-- The first name is the one that is complained of. -/
theorem plant_eq_error : ∀ {e : Expr} {n : Nat} {g : Graph Term} {name : String}
    {rest : List String}, Kept n g → n + e.size < 2 ^ 64 → e.names = name :: rest →
      plant e g = .error (.plan (.unresolvedColumn name))
  | .const _, _, _, _, _, _, _, hnames | .column _ _ _, _, _, _, _, _, _, hnames => by cases hnames
  | .named input _, n, g, name, rest, _, _, hnames => by
    obtain ⟨rfl, -⟩ := List.cons.inj hnames
    rfl
  | .unary op e, n, g, name, rest, h, hroom, hnames => by
    rw [Expr.size, ← Nat.add_assoc] at hroom
    have hk := h.add (by omega) (.unary op)
    unfold plant
    dsimp only
    rw [plant_eq_error hk hroom hnames]
    rfl
  | .binary op x y, n, g, name, rest, h, hroom, hnames => by
    rw [Expr.size, ← Nat.add_assoc, ← Nat.add_assoc] at hroom
    have hk := h.add (by omega) (.binary op)
    unfold plant
    dsimp only
    cases hx : x.names with
    | cons first others =>
      rw [Expr.names, hx] at hnames
      obtain ⟨rfl, -⟩ := List.cons.inj hnames
      rw [plant_eq_error hk (by omega) hx]
      rfl
    | nil =>
      rw [Expr.names, hx, List.nil_append] at hnames
      obtain ⟨a, g₂, g₃, hrun, hc, hp, hk₃⟩ :=
        (planted_add h (.binary op)).extend hk (by omega) (takes_of_names hk (by omega) hx)
      rw [hrun, Pass.except_ok_bind, hc, Pass.except_ok_bind, plant_eq_error hk₃ hroom hnames]
      rfl

/-! ## The formula -/

theorem exists_planted (hroom : e.size < 2 ^ 64) (hnames : e.names = []) :
    ∃ id g' t es, ofExpr e = .ok ⟨g'⟩ ∧ e.parts? = some (t, es) ∧
      Planted 0 Graph.empty g' id t es := by
  obtain ⟨id, g', t, es, hrun, hparts, hp⟩ :=
    takes_of_names Kept.empty (by rwa [Nat.zero_add]) hnames
  refine ⟨id, g', t, es, ?_, hparts, hp⟩
  unfold ofExpr
  show (plant e Graph.empty >>= _) = _
  rw [hrun]
  rfl

/-- The formula of an expression is valid, and is read back as the expression. -/
theorem exists_ofExpr (hroom : e.size < 2 ^ 64) (hnames : e.names = []) :
    ∃ f, ofExpr e = .ok f ∧ f.validate = .ok () ∧ f.graph.size = e.size ∧ f.toExpr = .ok e := by
  obtain ⟨id, g', t, es, hof, hparts, hp⟩ := exists_planted hroom hnames
  have hsound := sound_ofExpr hroom hof
  have hid := (hsound.wellFormed.mem_ids id).mpr (Graph.contains_of_content? hp.term)
  have hsource : g'.sources = [id] := by
    refine filter_eq_singleton hsound.wellFormed.ids_nodup hid fun x hx => ?_
    rw [List.isEmpty_iff]
    constructor
    · intro hpre
      by_contra hne
      have hpos : 0 < x.val.toNat := Nat.pos_of_ne_zero fun h0 => hne (hp.eq_of_key h0)
      have hone := hp.below x hpos (hsound.wellFormed.contains_of_mem hx)
      rw [hpre] at hone
      cases hone
    · rintro rfl
      exact hp.top
  have hroot : Formula.root ⟨g'⟩ = .ok id := root_eq_ok.mpr hsource
  have hvalid : Valid ⟨g'⟩ := {
    rooted := ⟨id, hroot⟩
    acyclic := ⟨fun x => x.val.toNat, fun x y hy => hp.down x (Nat.zero_le _) y hy⟩
    arity := fun x u hu => hp.arity_of_parts hparts x u (Nat.zero_le _) hu }
  refine ⟨⟨g'⟩, hof, (validate_eq_ok hsound).mpr hvalid, ?_, ?_⟩
  · show g'.size = e.size
    rw [hsound.wellFormed.size_eq, hp.length, Expr.size_of_parts? hparts]
    simp [Graph.empty]
  · unfold toExpr
    rw [hroot]
    exact (StandsFor.of_parts hparts hp.term hp.operands).toExpr_eq hsound hvalid

theorem names_of_ofExpr (h : ofExpr e = .ok f) : e.names = [] := by
  unfold ofExpr at h
  obtain ⟨⟨id, g⟩, hrun, -⟩ := Pass.except_bind_eq_ok.mp h
  exact names_of_plant hrun

/-- Every operand is laid out for the one node that it is connected to. -/
theorem isTree_ofExpr (hroom : e.size < 2 ^ 64) (hof : ofExpr e = .ok f) : f.isTree = true := by
  obtain ⟨id, g', t, es, hof', -, hp⟩ := exists_planted hroom (names_of_ofExpr hof)
  obtain rfl := Except.ok.inj (hof'.symm.trans hof)
  have hwf := (sound_ofExpr hroom hof).wellFormed
  refine List.all_eq_true.mpr fun x hx => decide_eq_true ?_
  rcases Nat.eq_zero_or_pos x.val.toNat with hzero | hpos
  · rw [hp.eq_of_key hzero, hp.top]
    exact Nat.zero_le 1
  · exact Nat.le_of_eq (hp.below x hpos (hwf.contains_of_mem hx))

theorem ofExpr_eq_error (hroom : e.size < 2 ^ 64) (hnames : e.names = name :: rest) :
    ofExpr e = .error (.plan (.unresolvedColumn name)) := by
  unfold ofExpr
  show (plant e Graph.empty >>= _) = _
  rw [plant_eq_error Kept.empty (by rwa [Nat.zero_add]) hnames]
  rfl

/-- Resolving an expression leaves no name, and nothing more to resolve. What it gives is laid out
as a valid formula with a node for each part, from which it is read back. A formula is made of all
expressions but those with a name, the first of which is complained of. There have to be keys for
all parts, as there are for every expression that fits into memory. -/
theorem reads_back_resolved (e : Expr) (inputs : Inputs) (operator : String) :
    (∀ r, e.resolve inputs operator = .ok r → r.names = [] ∧
      (∀ inputs' operator', r.resolve inputs' operator' = .ok r) ∧
      (r.size < 2 ^ 64 → ∃ f, ofExpr r = .ok f ∧ f.validate = .ok () ∧
        f.graph.size = r.size ∧ f.toExpr = .ok r)) ∧
    (e.names ≠ [] → ∃ error, ofExpr e = .error error) ∧
    (e.size < 2 ^ 64 → ((∃ error, ofExpr e = .error error) ↔ e.names ≠ []) ∧
      ∀ name rest, e.names = name :: rest →
        ofExpr e = .error (.plan (.unresolvedColumn name))) := by
  have hfails : e.names ≠ [] → ∃ error, ofExpr e = .error error := by
    intro hnames
    cases hof : ofExpr e with
    | ok f => exact absurd (names_of_ofExpr hof) hnames
    | error error => exact ⟨error, rfl⟩
  refine ⟨?_, hfails, ?_⟩
  · intro r hr
    have hnames := Expr.names_resolve hr
    exact ⟨hnames, fun _ _ => Expr.resolve_eq_self hnames, fun hroom =>
      exists_ofExpr hroom hnames⟩
  · intro hroom
    refine ⟨⟨?_, hfails⟩, fun name rest hnames => ofExpr_eq_error hroom hnames⟩
    rintro ⟨error, herror⟩ hnames
    obtain ⟨f, hf, -⟩ := exists_ofExpr hroom hnames
    rw [hf] at herror
    cases herror

/-- One column is given by its name and one by its place. -/
def byNameAndPlace : Expr :=
  .binary .and (.binary (.compare .gt) (.named 0 "a") (.const (.boolean true)))
    (.unary .isNull (.named 0 "$1"))

theorem byNameAndPlace_read_back : ∃ r,
    byNameAndPlace.resolve [some [{ name := "a", type := .boolean }]] "f" = .ok r ∧
    byNameAndPlace.names = ["a", "$1"] ∧ (∃ f, ofExpr r = .ok f ∧ f.validate = .ok () ∧
      f.graph.size = 6 ∧ f.toExpr = .ok r) ∧
    ofExpr byNameAndPlace = .error (.plan (.unresolvedColumn "a")) := by
  have hr : byNameAndPlace.resolve [some [{ name := "a", type := .boolean }]] "f" = .ok
      (.binary .and (.binary (.compare .gt) (.column 0 0 (some "a")) (.const (.boolean true)))
        (.unary .isNull (.column 0 1 none))) := rfl
  obtain ⟨hresolved, -, hroom⟩ :=
    reads_back_resolved byNameAndPlace [some [{ name := "a", type := .boolean }]] "f"
  obtain ⟨-, -, hread⟩ := hresolved _ hr
  obtain ⟨-, herror⟩ := hroom (by decide)
  exact ⟨_, hr, rfl, hread (by decide), herror "a" ["$1"] rfl⟩

end Formula

end Dataflow

import Dataflow.Proofs.Graph.Cycles
import Dataflow.Proofs.Graph.Isomorphism
import Dataflow.Proofs.Graph.Reach
import Dataflow.Proofs.Rewrite.Search

/-!
# Matches are embeddings

An embedding of a pattern gives every node an operator of its own, of the type that the node asks
for, so that the edge in an output slot leads to the operator in the same slot (`Embeds`). From the
anchor on the slots leave no choice: there is at most one embedding for each operator that the root
may be sent to (`Embeds.eqOn`).

This is why the matcher never goes back. What it has bound and what it has still to bind fit the
plan (`bind_fits`), and when nothing is left to bind, every node is bound, since all of them lie
behind the root. On the other hand an embedding answers for every pair that the matcher comes to
(`Embeds.bind_along`): a node reached twice is bound to the operator it should be bound to, and an
operator that is taken is taken by that node.
-/

namespace Dataflow.Pattern

open Dataflow.Graph

variable {pattern : Pattern} {plan : Plan} {f f' : NodeId → NodeId} {r a b x : NodeId} {m : Match}
  {stack : List (NodeId × NodeId)} {pairs found : Pairing} {ids : List NodeId}

/-- The pattern has one source, and no path leads back to where it starts. -/
structure Rooted (pattern : Pattern) (r : NodeId) : Prop where
  wellFormed : pattern.graph.WellFormed
  source : pattern.graph.sources = [r]
  acyclic : ¬pattern.graph.Cyclic

namespace Rooted

theorem contains (h : pattern.Rooted r) : pattern.graph.contains r = true := by
  have hr : r ∈ pattern.graph.sources := by rw [h.source]; exact List.mem_singleton_self r
  exact (h.wellFormed.mem_sources.mp hr).1

/-- What holds of the root and is passed on along edges holds of every node. -/
theorem induction {P : NodeId → Prop} (h : pattern.Rooted r) (hr : P r)
    (hstep : ∀ (a : NodeId) (i : Nat) (b : NodeId), P a →
      (pattern.graph.successors a)[i]? = some b → P b) :
    ∀ a, pattern.graph.contains a = true → P a := by
  have hac := (acyclic_iff h.wellFormed).mpr h.acyclic
  refine hac.from_source h.wellFormed h.source hr fun x _ hx y hy => ?_
  obtain ⟨i, hi⟩ := List.mem_iff_getElem?.mp hy
  exact hstep x i y hx hi

theorem reaches (h : pattern.Rooted r) :
    ∀ a, pattern.graph.contains a = true → pattern.graph.reaches r a = true :=
  h.induction reaches_self fun _ _ _ ha hb =>
    reaches_of_edge ha (List.mem_of_getElem? hb)

end Rooted

/-- These are the patterns that are in order; that they are connected follows. -/
theorem root_eq_ok_iff (h : pattern.graph.WellFormed) :
    pattern.root = .ok r ↔ pattern.Rooted r := by
  constructor
  · intro hroot
    unfold root at hroot
    split at hroot
    · cases hroot
    · rename_i source hsource
      split at hroot
      · cases hroot
      · rename_i hno
        have hac := (hasCycle_eq_false_iff h).mp (Bool.eq_false_iff.mpr hno)
        split at hroot
        · cases hroot
        · obtain rfl := Except.ok.inj hroot
          exact ⟨h, hsource, (acyclic_iff h).mp hac⟩
    · cases hroot
  · intro hr
    have hno := (hasCycle_eq_false_iff h).mpr ((acyclic_iff h).mpr hr.acyclic)
    have hperm : (pattern.graph.descendants r).Perm pattern.graph.ids := by
      apply (List.perm_ext_iff_of_nodup descendants_nodup h.ids_nodup).mpr
      intro a
      rw [h.mem_ids]
      constructor
      · exact contains_of_mem_descendants
      · intro ha
        rcases (reaches_iff h).mp (hr.reaches a ha) with rfl | hmem
        · exact self_mem_descendants ha
        · exact hmem
    unfold root
    rw [hr.source]
    dsimp only
    rw [hno, hperm.length_eq, ← h.size_eq]
    simp

/-! ## Embeddings -/

/-- The nodes of the pattern are sent to different operators of their types, and the target of the
edge in an output slot to the operator in this slot. -/
structure Embeds (pattern : Pattern) (plan : Plan) (f : NodeId → NodeId) : Prop where
  injOn : Set.InjOn f {a | pattern.graph.contains a = true}
  type : ∀ a t, pattern.graph.content? a = some t → plan.HasType (f a) t
  edge : ∀ (a : NodeId) (i : Nat) (b : NodeId), (pattern.graph.successors a)[i]? = some b →
    (plan.successors (f a))[i]? = some (f b)

/-- Where the root is sent decides where every node is. -/
theorem Embeds.eqOn (h : pattern.Rooted r) (hf : pattern.Embeds plan f)
    (hf' : pattern.Embeds plan f') (hr : f r = f' r) :
    Set.EqOn f f' {a | pattern.graph.contains a = true} := by
  refine h.induction hr fun a i b ha hb => ?_
  have h₁ := hf.edge a i b hb
  have h₂ := hf'.edge a i b hb
  rw [ha, h₂] at h₁
  exact (Option.some.inj h₁).symm

/-! ## What is bound fits -/

/-- The operator has the type that the node asks for, and an output for each of its edges. -/
def Suits (pattern : Pattern) (plan : Plan) (a b : NodeId) : Prop :=
  ∃ t, pattern.graph.content? a = some t ∧ plan.HasType b t ∧
    (pattern.graph.successors a).length ≤ (plan.successors b).length

/-- Every edge has a slot to be found in. -/
theorem Suits.exists_output {i : Nat} (h : pattern.Suits plan a b)
    (hx : (pattern.graph.successors a)[i]? = some x) :
    ∃ y, (plan.graph.successors b)[i]? = some y := by
  obtain ⟨-, -, -, hlen⟩ := h
  obtain ⟨hi, -⟩ := List.getElem?_eq_some_iff.mp hx
  exact ⟨_, List.getElem?_eq_getElem (Nat.lt_of_lt_of_le hi hlen)⟩

theorem suits_iff {v : Vertex OperatorType} {op : Operator}
    (hv : pattern.graph.vertices[a]? = some v) (hop : plan.operator? b = some op) :
    pattern.Suits plan a b ↔
      v.content = op.type ∧ v.outs.length ≤ (plan.successors b).length := by
  obtain ⟨hc, hs, -⟩ := getElem?_vertices.mp hv
  unfold Suits Plan.HasType
  rw [hc, hs, hop]
  constructor
  · rintro ⟨t, ht, ⟨o, ho, htype⟩, hlen⟩
    obtain rfl := Option.some.inj ho
    exact ⟨(Option.some.inj ht).trans htype.symm, hlen⟩
  · rintro ⟨htype, hlen⟩
    exact ⟨v.content, rfl, ⟨op, rfl, htype.symm⟩, hlen⟩

/-- The equation for two nodes without partners. -/
theorem bind_new {rest : List (NodeId × NodeId)} {v : Vertex OperatorType} {op : Operator}
    (ha : pairs.forward? a = none) (hb : pairs.backward? b = none)
    (hv : pattern.graph.vertices[a]? = some v) (hop : plan.operator? b = some op) :
    pattern.bind plan ((a, b) :: rest) pairs =
      if v.content = op.type ∧ v.outs.length ≤ (plan.successors b).length then
        pattern.bind plan (v.outs.zip (plan.successors b) ++ rest) ((a, b) :: pairs)
      else none := by
  rw [bind_cons, ha, hb, hv, hop]
  rfl

/-- Whatever is put on the stack is bound, to operators that suit. -/
theorem bind_fits (hf : Fits (pattern.Suits plan) pattern.graph plan.graph stack pairs)
    (h : pattern.bind plan stack pairs = some found) :
    Fits (pattern.Suits plan) pattern.graph plan.graph [] found ∧ pairs ⊆ found ∧
      stack ⊆ found := by
  induction stack, pairs using bind.induct pattern plan with
  | case1 pairs =>
    rw [bind_nil] at h
    obtain rfl := Option.some.inj h
    exact ⟨hf, List.Subset.refl pairs, List.nil_subset pairs⟩
  | case2 pairs a rest b ha ih =>
    rw [bind_cons, ha] at h
    have hmem := Pairing.mem_of_forward? ha
    obtain ⟨hfits, hpairs, hrest⟩ := ih (hf.skip hmem) (by simpa using h)
    exact ⟨hfits, hpairs, List.cons_subset.mpr ⟨hpairs hmem, hrest⟩⟩
  | case5 pairs a b rest ha hb v op hv hop hsuits ih =>
    rw [bind_new ha hb hv hop, if_pos hsuits] at h
    have hpair := hf.pair ha hb ((suits_iff hv hop).mpr hsuits)
      (by rw [successors_of_getElem? hv]; exact List.Subset.refl _)
    obtain ⟨hfits, hpairs, hstack⟩ := ih hpair h
    obtain ⟨hab, hpairs⟩ := List.cons_subset.mp hpairs
    exact ⟨hfits, hpairs, List.cons_subset.mpr ⟨hab, (List.append_subset.mp hstack).2⟩⟩
  | case6 pairs a b rest ha hb v op hv hop hno =>
    rw [bind_new ha hb hv hop, if_neg hno] at h
    cases h
  | _ => simp_all [bind_cons]

/-- When nothing is left to bind, the outputs of what is bound are bound. -/
theorem bound_of_fits (h : pattern.Rooted r)
    (hf : Fits (pattern.Suits plan) pattern.graph plan.graph [] found) (hr : (r, b) ∈ found) :
    ∀ a, pattern.graph.contains a = true → (a, found.rename a) ∈ found := by
  refine h.induction ?_ fun a i x ha hx => ?_
  · rwa [Pairing.rename_of_mem hf.lefts_nodup hr]
  · obtain ⟨y, hy⟩ := (hf.related _ _ ha).exists_output hx
    have hzip : (x, y) ∈ (pattern.graph.successors a).zip
        (plan.graph.successors (found.rename a)) :=
      List.mem_iff_getElem?.mpr ⟨i, List.getElem?_zip_eq_some.mpr ⟨hx, hy⟩⟩
    have hmem := (hf.outputs _ _ ha _ hzip).resolve_right List.not_mem_nil
    rwa [Pairing.rename_of_mem hf.lefts_nodup hmem]

theorem mapM_forward? (hn : pairs.lefts.Nodup) : ∀ {ids : List NodeId},
    (∀ a ∈ ids, (a, pairs.rename a) ∈ pairs) →
      ids.mapM pairs.forward? = some (ids.map pairs.rename)
  | [], _ => rfl
  | a :: ids, h => by
    rw [List.mapM_cons, Pairing.forward?_of_mem hn (h a (by simp)),
      mapM_forward? hn fun x hx => h x (List.mem_cons_of_mem a hx)]
    rfl

/-- What the matcher has bound is an embedding, and the match lists it. -/
theorem embeds_of_bind (h : pattern.Rooted r)
    (hb : pattern.bind plan [(r, b)] [] = some found) :
    pattern.Embeds plan found.rename ∧ found.rename r = b ∧
      pattern.graph.ids.mapM found.forward? = some (pattern.graph.ids.map found.rename) := by
  obtain ⟨hf, -, hstack⟩ := bind_fits .nil hb
  have hr : (r, b) ∈ found := hstack List.mem_cons_self
  have hbound := bound_of_fits h hf hr
  refine ⟨⟨?_, ?_, ?_⟩, Pairing.rename_of_mem hf.lefts_nodup hr, ?_⟩
  · intro a ha x hx heq
    exact hf.rename_inj (hbound a ha) (hbound x hx) heq
  · intro a t ht
    obtain ⟨t', ht', htype, -⟩ := hf.related _ _ (hbound a (contains_of_content? ht))
    obtain rfl := Option.some.inj (ht.symm.trans ht')
    exact htype
  · intro a i x hx
    have ha := contains_of_mem_successors (List.mem_of_getElem? hx)
    obtain ⟨y, hy⟩ := (hf.related _ _ (hbound a ha)).exists_output hx
    rw [hf.rename_successors (hbound a ha) hx hy]
    exact hy
  · apply mapM_forward? hf.lefts_nodup
    intro a ha
    exact hbound a (h.wellFormed.contains_of_mem ha)

/-! ## The matcher along an embedding -/

namespace Embeds

theorem suits (hf : pattern.Embeds plan f) (ha : pattern.graph.contains a = true) :
    pattern.Suits plan a (f a) := by
  obtain ⟨t, ht⟩ := exists_content? ha
  refine ⟨t, ht, hf.type a t ht, ?_⟩
  -- the last edge has a slot to be sent to
  by_contra hlt
  rw [Nat.not_le] at hlt
  have hedge := hf.edge a _ _ (List.getElem?_eq_getElem hlt)
  rw [List.getElem?_eq_none (Nat.le_refl _)] at hedge
  cases hedge

/-- Pairs of an embedding do not clash: all of them can be bound. -/
theorem bind_along (hf : pattern.Embeds plan f) (hwf : pattern.graph.WellFormed)
    (hstack : Along f pattern.graph stack) (hpairs : Along f pattern.graph pairs) :
    ∃ found, pattern.bind plan stack pairs = some found := by
  induction stack, pairs using bind.induct pattern plan with
  | case1 pairs => exact ⟨pairs, bind_nil⟩
  | case2 pairs a rest b ha ih =>
    rw [bind_cons, ha]
    simpa using ih hstack.tail hpairs
  | case3 pairs a b rest b' ha hne =>
    -- a node that was bound before was bound to its image
    obtain ⟨-, rfl⟩ := hstack a b (by simp)
    obtain ⟨-, rfl⟩ := hpairs a b' (Pairing.mem_of_forward? ha)
    exact absurd rfl hne
  | case4 pairs a b rest a' ha hb =>
    -- two nodes do not compete for an operator
    obtain ⟨hca, rfl⟩ := hstack a b (by simp)
    rw [hpairs.backward?_eq_none hf.injOn hca ha] at hb
    cases hb
  | case5 pairs a b rest ha hb v op hv hop hsuits ih =>
    obtain ⟨hca, rfl⟩ := hstack a b (by simp)
    rw [bind_new ha hb hv hop, if_pos hsuits]
    have houts : Along f pattern.graph (v.outs.zip (plan.successors (f a))) := by
      rw [← successors_of_getElem? hv]
      exact Along.zip (fun x hx => hwf.target hx) fun i x hx => hf.edge a i x hx
    exact ih (houts.append hstack.tail) (hpairs.cons hca)
  | case6 pairs a b rest ha hb v op hv hop hno =>
    obtain ⟨hca, rfl⟩ := hstack a b (by simp)
    exact absurd ((suits_iff hv hop).mp (hf.suits hca)) hno
  | case7 pairs a b rest ha hb hnone =>
    obtain ⟨hca, rfl⟩ := hstack a b (by simp)
    obtain ⟨v, hv⟩ := exists_vertex hca
    obtain ⟨-, -, ⟨op, hop, -⟩, -⟩ := hf.suits hca
    exact (hnone v op hv hop).elim

end Embeds

/-! ## Matches -/

theorem matchAt_eq (hroot : pattern.root = .ok r) : pattern.matchAt plan b = .ok (do
    let found ← pattern.bind plan [(r, b)] []
    let nodes ← pattern.graph.ids.mapM found.forward?
    return ⟨nodes⟩) := by
  unfold matchAt
  rw [hroot]
  rfl

/-- The match at an operator is the embedding that sends the root there. -/
theorem matchAt_eq_some_iff (h : pattern.Rooted r) : pattern.matchAt plan b = .ok (some m) ↔
    ∃ f, pattern.Embeds plan f ∧ f r = b ∧ m.nodes = pattern.graph.ids.map f := by
  rw [matchAt_eq ((root_eq_ok_iff h.wellFormed).mpr h)]
  constructor
  · intro hm
    simp only [Except.ok.injEq, Option.bind_eq_bind, Option.bind_eq_some_iff, Option.pure_def,
      Option.some.injEq] at hm
    obtain ⟨found, hbind, nodes, hnodes, rfl⟩ := hm
    obtain ⟨hf, hr, hall⟩ := embeds_of_bind h hbind
    exact ⟨found.rename, hf, hr, Option.some.inj (hnodes.symm.trans hall)⟩
  · rintro ⟨f, hf, rfl, hm⟩
    obtain ⟨found, hbind⟩ := hf.bind_along h.wellFormed (Along.nil.cons h.contains) .nil
    obtain ⟨hf', hr, hall⟩ := embeds_of_bind h hbind
    -- what was bound may differ from the embedding only outside the pattern
    have hsame : pattern.graph.ids.map found.rename = pattern.graph.ids.map f := by
      apply List.map_congr_left
      intro a ha
      exact hf'.eqOn h hf hr (h.wellFormed.contains_of_mem ha)
    rw [hbind, Option.bind_eq_bind, Option.bind_some, hall, hsame, ← hm]
    rfl

theorem matchAt_eq_none_iff (h : pattern.Rooted r) : pattern.matchAt plan b = .ok none ↔
    ¬∃ f, pattern.Embeds plan f ∧ f r = b := by
  obtain ⟨m?, hm?⟩ : ∃ m?, pattern.matchAt plan b = .ok m? :=
    ⟨_, matchAt_eq ((root_eq_ok_iff h.wellFormed).mpr h)⟩
  constructor
  · rintro hnone ⟨f, hf, hr⟩
    have hsome := (matchAt_eq_some_iff (m := ⟨pattern.graph.ids.map f⟩) h).mpr ⟨f, hf, hr, rfl⟩
    rw [hnone] at hsome
    cases hsome
  · intro hno
    cases m? with
    | none => exact hm?
    | some m =>
      obtain ⟨f, hf, hr, -⟩ := (matchAt_eq_some_iff h).mp hm?
      exact absurd ⟨f, hf, hr⟩ hno

/-- Listed operators are tried in turn, and each gives at most one match. -/
theorem exists_matchesAt (h : pattern.Rooted r) (plan : Plan) : ∀ ids : List NodeId,
    ∃ anchors found, pattern.matchesAt plan ids = .ok found ∧ anchors.Sublist ids ∧
    (∀ b, b ∈ anchors ↔ b ∈ ids ∧ ∃ f, pattern.Embeds plan f ∧ f r = b) ∧
    List.Forall₂ (fun b m => ∃ f, pattern.Embeds plan f ∧ f r = b ∧
      m.nodes = pattern.graph.ids.map f) anchors found := by
  intro ids
  induction ids with
  | nil => exact ⟨[], [], rfl, .slnil, by simp, .nil⟩
  | cons b ids ih =>
    obtain ⟨anchors, found, hfound, hsub, hmem, hall⟩ := ih
    unfold matchesAt
    by_cases hb : ∃ f, pattern.Embeds plan f ∧ f r = b
    · obtain ⟨f, hf, hr⟩ := hb
      refine ⟨b :: anchors, ⟨pattern.graph.ids.map f⟩ :: found, ?_, hsub.cons_cons b, ?_,
        .cons ⟨f, hf, hr, rfl⟩ hall⟩
      · rw [(matchAt_eq_some_iff h).mpr ⟨f, hf, hr, rfl⟩, Pass.except_ok_bind, hfound]
        rfl
      · intro c
        rw [List.mem_cons, List.mem_cons, hmem]
        constructor
        · rintro (rfl | ⟨hc, hf⟩)
          · exact ⟨.inl rfl, f, hf, hr⟩
          · exact ⟨.inr hc, hf⟩
        · rintro ⟨rfl | hc, hf⟩
          · exact .inl rfl
          · exact .inr ⟨hc, hf⟩
    · refine ⟨anchors, found, ?_, hsub.cons b, ?_, hall⟩
      · rw [(matchAt_eq_none_iff h).mpr hb, Pass.except_ok_bind]
        exact hfound
      · intro c
        rw [List.mem_cons, hmem]
        constructor
        · rintro ⟨hc, hf⟩
          exact ⟨.inr hc, hf⟩
        · rintro ⟨rfl | hc, hf⟩
          · exact absurd hf hb
          · exact ⟨hc, hf⟩

/-- The operators of a list that are in the scope. -/
def tried (order : List NodeId) : Option (List NodeId) → List NodeId
  | some ids => order.filter (ids.contains ·)
  | none => order

theorem tried_sublist (order : List NodeId) (scope : Option (List NodeId)) :
    (tried order scope).Sublist order := by
  cases scope with
  | none => exact List.Sublist.refl order
  | some ids => exact List.filter_sublist

theorem mem_tried {order : List NodeId} {scope : Option (List NodeId)} :
    b ∈ tried order scope ↔ b ∈ order ∧ ∀ ids, scope = some ids → b ∈ ids := by
  cases scope with
  | none => simp [tried]
  | some ids => simp [tried]

/-- The matcher finds the embeddings: at an operator the only one that sends the root there, and in
a plan without cycles all that send the root into the scope, in the order of the plan. -/
theorem matches_are_embeddings (h : pattern.Rooted r) (hwf : plan.graph.WellFormed)
    (hac : ¬plan.graph.Cyclic) :
    (∀ b m, pattern.matchAt plan b = .ok (some m) ↔
      ∃ f, pattern.Embeds plan f ∧ f r = b ∧ m.nodes = pattern.graph.ids.map f) ∧
    (∀ b, pattern.matchAt plan b = .ok none ↔ ¬∃ f, pattern.Embeds plan f ∧ f r = b) ∧
    (∀ f f', pattern.Embeds plan f → pattern.Embeds plan f' → f r = f' r →
      ∀ a, pattern.graph.contains a = true → f a = f' a) ∧
    ∀ scope : Option (List NodeId), ∃ order anchors found,
      plan.graph.topologicalOrder = .ok order ∧ pattern.findMatches plan scope = .ok found ∧
      anchors.Sublist order ∧ anchors.Nodup ∧
      (∀ b, b ∈ anchors ↔
        (∀ ids, scope = some ids → b ∈ ids) ∧ ∃ f, pattern.Embeds plan f ∧ f r = b) ∧
      List.Forall₂ (fun b m => ∃ f, pattern.Embeds plan f ∧ f r = b ∧
        m.nodes = pattern.graph.ids.map f) anchors found := by
  refine ⟨fun b m => matchAt_eq_some_iff h, fun b => matchAt_eq_none_iff h,
    fun f f' hf hf' hr a ha => hf.eqOn h hf' hr ha, fun scope => ?_⟩
  obtain ⟨order, horder⟩ := exists_topologicalOrder hwf ((acyclic_iff hwf).mpr hac)
  obtain ⟨hnodup, hlisted, -⟩ := topologicalOrder_spec hwf horder
  obtain ⟨anchors, found, hfound, hanchors, hiff, hall⟩ :=
    exists_matchesAt h plan (tried order scope)
  have hsub := hanchors.trans (tried_sublist order scope)
  have hrun : pattern.findMatches plan scope = .ok found := by
    unfold findMatches
    rw [(root_eq_ok_iff h.wellFormed).mpr h, horder]
    cases scope <;> exact hfound
  refine ⟨order, anchors, found, horder, hrun, hsub, hnodup.sublist hsub, fun b => ?_, hall⟩
  rw [hiff, mem_tried]
  constructor
  · rintro ⟨⟨-, hscope⟩, hf⟩
    exact ⟨hscope, hf⟩
  · rintro ⟨hscope, f, hf, rfl⟩
    -- an operator that the root is sent to is in the plan
    obtain ⟨-, -, ⟨op, hop, -⟩, -⟩ := hf.suits h.contains
    exact ⟨⟨(hlisted _).mpr (Plan.contains_of_operator? hop), hscope⟩, f, hf, rfl⟩

/-- The two outputs of a split meet again. -/
def meeting : Pattern where
  graph :=
    { vertices := (({} : Std.TreeMap NodeId (Vertex OperatorType)).insert ⟨0⟩
        ⟨.split, [⟨1⟩, ⟨2⟩], []⟩) |>.insert ⟨1⟩ ⟨.splitOutput, [⟨3⟩], [⟨0⟩]⟩
        |>.insert ⟨2⟩ ⟨.splitOutput, [⟨3⟩], [⟨0⟩]⟩ |>.insert ⟨3⟩ ⟨.union, [], [⟨1⟩, ⟨2⟩]⟩
      ids := [⟨0⟩, ⟨1⟩, ⟨2⟩, ⟨3⟩]
      nextKey := 4 }

/-- A split whose outputs meet in a union, or each in one of its own. -/
def splitPlan (meets : Bool) : Plan := Plan.made do
  let load ← Plan.append { operation := .load { location := "/in" } } []
  let split ← Plan.append { operation := .split } [load]
  let left ← Plan.append { operation := .splitOutput (.constant (.boolean true)) } [split]
  let right ← Plan.append { operation := .splitOutput (.constant (.boolean true)) } [split]
  if meets then
    discard (Plan.append { operation := .union [] } [left, right])
  else
    discard (Plan.append { operation := .union [] } [left])
    discard (Plan.append { operation := .union [] } [right])

/-- The union is reached twice, and has to be the same operator both times. -/
theorem meeting_embeds : meeting.Rooted ⟨0⟩ ∧ (splitPlan true).graph.WellFormed ∧
    ¬(splitPlan true).graph.Cyclic ∧ (splitPlan false).graph.WellFormed ∧
    ¬(splitPlan false).graph.Cyclic ∧
    (∃ f, meeting.Embeds (splitPlan true) f ∧ f ⟨0⟩ = ⟨1⟩ ∧
      meeting.graph.ids.map f = [⟨1⟩, ⟨2⟩, ⟨3⟩, ⟨4⟩]) ∧
    ¬∃ f, meeting.Embeds (splitPlan false) f ∧ f ⟨0⟩ = ⟨1⟩ := by
  have hroot : meeting.Rooted ⟨0⟩ := (root_eq_ok_iff (by decide +kernel)).mp (by decide +kernel)
  have hplan : ∀ meets, (splitPlan meets).graph.WellFormed ∧ ¬(splitPlan meets).graph.Cyclic := by
    intro meets
    have hwf : (splitPlan meets).graph.WellFormed := by cases meets <;> decide +kernel
    have hno : (splitPlan meets).graph.hasCycle = false := by cases meets <;> decide +kernel
    exact ⟨hwf, (acyclic_iff hwf).mp ((hasCycle_eq_false_iff hwf).mp hno)⟩
  have hfound : meeting.matchAt (splitPlan true) ⟨1⟩ = .ok (some ⟨[⟨1⟩, ⟨2⟩, ⟨3⟩, ⟨4⟩]⟩) := by
    decide +kernel
  have hnone : meeting.matchAt (splitPlan false) ⟨1⟩ = .ok none := by decide +kernel
  obtain ⟨hsome, -⟩ := matches_are_embeddings hroot (hplan true).1 (hplan true).2
  obtain ⟨-, hfails, -⟩ := matches_are_embeddings hroot (hplan false).1 (hplan false).2
  obtain ⟨f, hf, hr, hnodes⟩ := (hsome ⟨1⟩ _).mp hfound
  exact ⟨hroot, (hplan true).1, (hplan true).2, (hplan false).1, (hplan false).2,
    ⟨f, hf, hr, hnodes.symm⟩, (hfails ⟨1⟩).mp hnone⟩

end Dataflow.Pattern

import Dataflow.Proofs.Rewrite.Opportunities
import Dataflow.Proofs.Rewrite.Undone

/-!
# Splitting filters, one after another

Filters may be split in any order. Every operator of the plan stays where it is, and a filter
becomes the head of a chain of filters which among them hold the conjuncts of its predicate from
left to right (`Unrolled`). Each split puts a new filter behind the one that is split
(`Unrolled.next`), whatever chain that belongs to. So the order makes no difference in the end: when
no predicate is a conjunction any more, each filter of a chain holds one conjunct
(`splitFilter_normalizes`).
-/

namespace Dataflow

open Dataflow.Graph Formula

variable {p q q' r : Plan} {u w x y z : NodeId} {f f' l g : Formula} {name : Option String}
  {e : Expr}
  {es : List Expr} {ins outs xs us us' : List NodeId} {chain chain' : NodeId → List NodeId}
  {φ : NodeId → NodeId}

namespace Formula

/-- Each part of a conjunction is nested less deeply. -/
theorem IsConjunction.conjunctionDepth_lt (h : IsConjunction f l g) :
    l.conjunctionDepth < f.conjunctionDepth ∧ g.conjunctionDepth < f.conjunctionDepth := by
  obtain ⟨root, rootL, rootG, hroot, hrootL, hrootG, hcompute⟩ := h.compute
  have hdepth : f.conjunctionDepth = 1 + max (max 0 l.conjunctionDepth) g.conjunctionDepth := by
    unfold conjunctionDepth
    rw [hroot, hrootL, hrootG]
    exact hcompute Nat (Unfolding.conjunctionDepthNode default) fun _ => 0
  omega

end Formula

/-! ## Putting a node behind another one -/

/-- The list with `w` put behind `u`. -/
def putBehind (u w : NodeId) (xs : List NodeId) : List NodeId :=
  xs.flatMap fun x => if x = u then [u, w] else [x]

theorem putBehind_cons_self : putBehind u w (u :: xs) = u :: w :: putBehind u w xs := by
  simp [putBehind]

theorem putBehind_cons_of_ne (h : x ≠ u) : putBehind u w (x :: xs) = x :: putBehind u w xs := by
  simp [putBehind, h]

theorem exists_putBehind_cons (u w x : NodeId) (xs : List NodeId) :
    ∃ rest, putBehind u w (x :: xs) = x :: rest := by
  by_cases h : x = u
  · rw [h]
    exact ⟨_, putBehind_cons_self⟩
  · exact ⟨_, putBehind_cons_of_ne h⟩

theorem putBehind_of_not_mem (h : u ∉ xs) : putBehind u w xs = xs := by
  induction xs with
  | nil => rfl
  | cons x xs ih =>
    obtain ⟨hx, hxs⟩ := not_or.mp (mt List.mem_cons.mpr h)
    rw [putBehind_cons_of_ne (Ne.symm hx), ih hxs]

theorem putBehind_perm (hn : xs.Nodup) (hu : u ∈ xs) : (putBehind u w xs).Perm (xs ++ [w]) := by
  induction xs with
  | nil => cases hu
  | cons x xs ih =>
    obtain ⟨hx, hn⟩ := List.nodup_cons.mp hn
    by_cases h : x = u
    · subst h
      rw [putBehind_cons_self, putBehind_of_not_mem hx]
      exact (List.perm_append_singleton w xs).symm.cons x
    · rw [putBehind_cons_of_ne h]
      exact (ih hn ((List.mem_cons.mp hu).resolve_left (Ne.symm h))).cons x

theorem head?_putBehind : (putBehind u w xs).head? = xs.head? := by
  cases xs with
  | nil => rfl
  | cons x xs =>
    obtain ⟨rest, hrest⟩ := exists_putBehind_cons u w x xs
    rw [hrest]
    rfl

/-- If `u` was last, then `w` is. -/
theorem getLastD_putBehind (hne : xs ≠ []) :
    (putBehind u w xs).getLastD z = renamed u w (xs.getLastD z) := by
  induction xs with
  | nil => exact absurd rfl hne
  | cons x xs ih =>
    cases xs with
    | nil =>
      by_cases h : x = u
      · rw [h, putBehind_cons_self]
        exact renamed_self.symm
      · rw [putBehind_cons_of_ne h]
        exact (renamed_of_ne h).symm
    | cons y ys =>
      have ih := ih (List.cons_ne_nil y ys)
      obtain ⟨rest, hrest⟩ := exists_putBehind_cons u w y ys
      rw [hrest] at ih
      by_cases h : x = u
      · rw [h, putBehind_cons_self, hrest]
        exact ih
      · rw [putBehind_cons_of_ne h, hrest]
        exact ih

namespace Plan

/-! ## One split -/

/-- The filter `u` is split: it is the anchor of a match that passes the check. -/
def SplitsAt (u : NodeId) (p q : Plan) : Prop :=
  ∃ m, m.anchor = .ok u ∧ Rule.splitFilter.AppliesTo m p q

/-- Two filters stand where there was one: `u` has kept the first part of the predicate, and `w` is
behind it with the second. -/
structure InTwo (p q : Plan) (u w : NodeId) (name : Option String) (f l g : Formula) : Prop where
  fit : q.CanSplit
  cascade : Cascade p q u w f l g
  whole : p.IsFilter u name f
  first : q.IsFilter u name l
  second : q.IsFilter w none g
  ids : q.graph.ids = p.graph.ids ++ [w]
  successors : ∀ z, q.graph.successors z =
    if z = u then [w] else if z = w then p.graph.successors u else p.graph.successors z
  isConjunction : f.isConjunction = true
  parts : f.splitConjunction = .ok (some (l, g))

/-- A match that passes the check is split. -/
theorem exists_inTwo {m : Match} (hp : p.CanSplit) (hm : Rule.splitFilter.Matches p m)
    (hc : Rule.splitFilter.check m p = .ok true q) : q = p ∧ ∃ u w name f l g region r,
      m.anchor = .ok u ∧ Rule.splitFilter.transform m p = .ok region r ∧
      InTwo p r u w name f l g := by
  obtain ⟨region, r, -, -, -, -, -, hrun, hfit, -⟩ :=
    Rule.splitFilter_applies hp hm (.refl hp.sound.coherent) hc
  obtain ⟨u, name, f, hanchor, hu⟩ := Rule.splitFilter_matches hm
  rw [Rule.splitFilter_check hanchor hu] at hc
  obtain ⟨hconj, rfl⟩ : f.isConjunction = true ∧ p = q := by simpa using hc
  obtain ⟨region', r', l, g, hrun', -, -, -, hcascade, hl, hg, hids, -, hsuc, hparts⟩ :=
    splitFilter_spec hp.sound hp.valid hanchor hu hconj
  obtain ⟨-, rfl⟩ := EStateM.Result.ok.inj (hrun.symm.trans hrun')
  exact ⟨rfl, u, _, name, f, l, g, region, r, hanchor, hrun,
    ⟨hfit, hcascade, hu, hl, hg, hids, hsuc, hconj, hparts⟩⟩

theorem SplitsAt.inTwo (hp : p.CanSplit) (h : SplitsAt u p q) :
    ∃ w name f l g, InTwo p q u w name f l g := by
  obtain ⟨m, hanchor, hm, p', region, hc, ht⟩ := h
  obtain ⟨rfl, u', w, name, f, l, g, region', r, hanchor', hrun, htwo⟩ := exists_inTwo hp hm hc
  obtain rfl := Except.ok.inj (hanchor.symm.trans hanchor')
  obtain ⟨-, rfl⟩ := EStateM.Result.ok.inj (hrun.symm.trans ht)
  exact ⟨w, name, f, l, g, htwo⟩

/-! ## Chains of filters -/

/-- The operators stand one behind the other: the first has these inputs, the last these outputs,
and between them each is the only input of the next and has no other output. -/
def Chained (p : Plan) : List NodeId → List NodeId → List NodeId → Prop
  | _, [], _ => False
  | ins, [x], outs => p.graph.predecessors x = ins ∧ p.graph.successors x = outs
  | ins, x :: y :: rest, outs =>
    p.graph.predecessors x = ins ∧ p.graph.successors x = [y] ∧ p.Chained [x] (y :: rest) outs

/-- The operators are filters by predicates laid out as these expressions. The first has this name,
and the others have none. -/
def Carry (p : Plan) : Option String → List NodeId → List Expr → Prop
  | _, [], [] => True
  | name, x :: xs, e :: es => (∃ f, p.IsFilter x name f ∧ LaidOut f e) ∧ p.Carry none xs es
  | _, _, _ => False

theorem Carry.length_eq (h : p.Carry name xs es) : xs.length = es.length := by
  induction xs generalizing name es with
  | nil =>
    cases es with
    | nil => rfl
    | cons e es => exact h.elim
  | cons x xs ih =>
    cases es with
    | nil => exact h.elim
    | cons e es => exact congrArg Nat.succ (ih h.2)

namespace InTwo

variable (h : InTwo p q u w name f l g)

include h

theorem not_mem_ids : w ∉ p.graph.ids := by
  intro hmem
  have hnodup := h.fit.sound.wellFormed.ids_nodup
  rw [h.ids] at hnodup
  exact (List.nodup_append.mp hnodup).2.2 w hmem w (by simp) rfl

theorem mem_ids (hp : p.graph.WellFormed) : u ∈ p.graph.ids := mem_ids_of_isFilter hp h.whole

theorem predecessors_of_ne (hz : z ≠ w) :
    q.graph.predecessors z = (p.graph.predecessors z).map (renamed u w) :=
  h.cascade.predecessors_of_ne hz

/-- The chain to which the filter belongs becomes longer, and the others stay. -/
theorem chained (hw : w ∉ xs) (hl : p.Chained ins xs outs) :
    q.Chained (ins.map (renamed u w)) (putBehind u w xs) outs := by
  have hne : w ≠ u := h.cascade.ne.symm
  have hpre : q.graph.predecessors w = [u] := by rw [h.cascade.predecessors, if_pos rfl]
  have hsuc : q.graph.successors w = p.graph.successors u := by
    rw [h.successors, if_neg hne, if_pos rfl]
  induction xs generalizing ins with
  | nil => exact hl.elim
  | cons x xs ih =>
    obtain ⟨hx, hw⟩ := not_or.mp (mt List.mem_cons.mpr hw)
    have hprex := h.predecessors_of_ne (Ne.symm hx)
    cases xs with
    | nil =>
      obtain ⟨hins, houts⟩ := hl
      rw [hins] at hprex
      by_cases hxu : x = u
      · subst hxu
        rw [putBehind_cons_self]
        exact ⟨hprex, by rw [h.successors, if_pos rfl], hpre, hsuc.trans houts⟩
      · rw [putBehind_cons_of_ne hxu]
        refine ⟨hprex, ?_⟩
        rw [h.successors, if_neg hxu, if_neg (Ne.symm hx)]
        exact houts
    | cons y ys =>
      obtain ⟨hins, hnext, hrest⟩ := hl
      have ih := ih hw hrest
      obtain ⟨rest, hput⟩ := exists_putBehind_cons u w y ys
      rw [hins] at hprex
      rw [hput] at ih
      by_cases hxu : x = u
      · subst hxu
        rw [List.map_singleton, renamed_self] at ih
        rw [putBehind_cons_self, hput]
        exact ⟨hprex, by rw [h.successors, if_pos rfl], hpre, hsuc.trans hnext, ih⟩
      · rw [List.map_singleton, renamed_of_ne hxu] at ih
        rw [putBehind_cons_of_ne hxu, hput]
        refine ⟨hprex, ?_, ih⟩
        rw [h.successors, if_neg hxu, if_neg (Ne.symm hx)]
        exact hnext

/-- The two parts of a predicate take its place. -/
theorem carry {name' : Option String} (hc : p.Carry name' xs es) :
    ∃ es', q.Carry name' (putBehind u w xs) es' ∧
      es'.flatMap Expr.conjuncts = es.flatMap Expr.conjuncts := by
  induction xs generalizing name' es with
  | nil => exact ⟨es, by cases es <;> exact hc, rfl⟩
  | cons x xs ih =>
    cases es with
    | nil => exact hc.elim
    | cons e es =>
      obtain ⟨⟨f', hf', hlaid⟩, hrest⟩ := hc
      obtain ⟨es', hes', hconj⟩ := ih hrest
      by_cases hx : x = u
      · subst hx
        obtain ⟨rfl, rfl⟩ := hf'.unique h.whole
        obtain ⟨d, e, rfl⟩ :=
          (isConjunction_iff_toExpr hlaid.sound hlaid.valid hlaid.toExpr).mp h.isConjunction
        obtain ⟨l', g', hsplit, hl, hg⟩ := hlaid.split
        obtain ⟨rfl, rfl⟩ : l' = l ∧ g' = g := by simpa using hsplit.symm.trans h.parts
        rw [putBehind_cons_self]
        refine ⟨d :: e :: es', ⟨⟨_, h.first, hl⟩, ⟨_, h.second, hg⟩, hes'⟩, ?_⟩
        simp [Expr.conjuncts, hconj]
      · rw [putBehind_cons_of_ne hx]
        exact ⟨e :: es', ⟨⟨f', h.cascade.isFilter_of_ne hx hf', hlaid⟩, hes'⟩, by simp [hconj]⟩

end InTwo

/-! ## Any number of splits -/

/-- One filter after the other is split, at these anchors. -/
inductive Splits (p : Plan) : List NodeId → Plan → Prop
  | start : Splits p [] p
  | next {us : List NodeId} {u : NodeId} {q r : Plan} :
    Splits p us q → SplitsAt u q r → Splits p (us ++ [u]) r

/-- What the operators of `p` have become: each is the head of a chain, which takes the place of the
operator. Where the operator is a filter, the chain holds the conjuncts of its predicate and has one
filter for each split of it; all other chains have just one element, which is the operator
itself. -/
structure Unrolled (p : Plan) (us : List NodeId) (q : Plan) (chain : NodeId → List NodeId) :
    Prop where
  ids : q.graph.ids.Perm (p.graph.ids.flatMap chain)
  head : ∀ z ∈ p.graph.ids, (chain z).head? = some z
  chained : ∀ z ∈ p.graph.ids, q.Chained
    ((p.graph.predecessors z).map fun y => (chain y).getLastD y) (chain z) (p.graph.successors z)
  other : ∀ z ∈ p.graph.ids, ¬ p.HasType z .filter → chain z = [z] ∧ q.core? z = p.core? z
  filter : ∀ z name f e, p.IsFilter z name f → LaidOut f e →
    ∃ es, q.Carry name (chain z) es ∧ es.flatMap Expr.conjuncts = e.conjuncts
  splits : ∀ z ∈ p.graph.ids, us.countP (· ∈ chain z) + 1 = (chain z).length

theorem Unrolled.start : Unrolled p [] p fun z => [z] where
  ids := by simp
  head _ _ := rfl
  chained z _ := ⟨(List.map_id _).symm, rfl⟩
  other _ _ _ := ⟨rfl, rfl⟩
  filter z name f e hz hf := ⟨[e], ⟨⟨f, hz, hf⟩, trivial⟩, List.flatMap_singleton ..⟩
  splits _ _ := rfl

namespace Unrolled

variable (h : Unrolled p us q chain)

include h

theorem chain_ne_nil (hz : z ∈ p.graph.ids) : chain z ≠ [] := by
  have hhead := h.head z hz
  rintro heq
  rw [heq] at hhead
  cases hhead

theorem nodup (hq : q.graph.WellFormed) : (p.graph.ids.flatMap chain).Nodup :=
  h.ids.nodup_iff.mp hq.ids_nodup

theorem mem_ids (hz : z ∈ p.graph.ids) (hx : x ∈ chain z) : x ∈ q.graph.ids :=
  h.ids.mem_iff.mpr (List.mem_flatMap.mpr ⟨z, hz, hx⟩)

/-- A filter belongs to the chain of a filter. -/
theorem hasType_of_mem (hz : z ∈ p.graph.ids) (hx : x ∈ chain z) (hfilter : q.HasType x .filter) :
    p.HasType z .filter := by
  by_contra hnot
  obtain ⟨hchain, hcore⟩ := h.other z hz hnot
  rw [hchain, List.mem_singleton] at hx
  rw [hx, hasType_iff_core?, hcore, ← hasType_iff_core?] at hfilter
  exact hnot hfilter

/-- One more split, of whichever filter. -/
theorem next (hp : p.graph.WellFormed) (hq : q.graph.WellFormed) (hus : ∀ v ∈ us, v ∈ q.graph.ids)
    (htwo : InTwo q r u w name f l g) :
    Unrolled p (us ++ [u]) r fun z => putBehind u w (chain z) where
  ids := by
    have hnodup := h.nodup hq
    have hu := h.ids.mem_iff.mp (htwo.mem_ids hq)
    have hperm := (putBehind_perm (w := w) hnodup hu).symm
    rw [putBehind, List.flatMap_assoc] at hperm
    rw [htwo.ids]
    exact (h.ids.append_right [w]).trans hperm
  head z hz := head?_putBehind.trans (h.head z hz)
  chained z hz := by
    have hw : w ∉ chain z := fun hmem => htwo.not_mem_ids (h.mem_ids hz hmem)
    have hchained := htwo.chained hw (h.chained z hz)
    rw [List.map_map] at hchained
    rwa [List.map_congr_left fun y hy => ?_]
    have hy := (hp.mem_ids y).mpr (hp.source hy)
    exact getLastD_putBehind (h.chain_ne_nil hy)
  other z hz hnot := by
    obtain ⟨hchain, hcore⟩ := h.other z hz hnot
    have hu : u ∉ chain z := fun hmem =>
      hnot (h.hasType_of_mem hz hmem htwo.whole.hasType)
    refine ⟨(putBehind_of_not_mem hu).trans hchain, ?_⟩
    have hmem : z ∈ chain z := by simp [hchain]
    rw [← hcore]
    refine htwo.cascade.other z (fun heq => hu (heq ▸ hmem)) fun heq => ?_
    exact htwo.not_mem_ids (heq ▸ h.mem_ids hz hmem)
  filter z name' f' e hz hf := by
    obtain ⟨es, hes, hconj⟩ := h.filter z name' f' e hz hf
    obtain ⟨es', hes', hconj'⟩ := htwo.carry hes
    exact ⟨es', hes', hconj'.trans hconj⟩
  splits z hz := by
    have hn : (chain z).Nodup := (List.nodup_flatMap.mp (h.nodup hq)).1 z hz
    have hsplits := h.splits z hz
    rw [List.countP_append]
    by_cases hu : u ∈ chain z
    · have hperm := putBehind_perm (w := w) hn hu
      have hold : us.countP (· ∈ putBehind u w (chain z)) = us.countP (· ∈ chain z) := by
        refine List.countP_congr fun v hv => ?_
        have hvw : v ≠ w := fun heq => htwo.not_mem_ids (heq ▸ hus v hv)
        simp [hperm.mem_iff, hvw]
      have hnew : [u].countP (· ∈ putBehind u w (chain z)) = 1 := by
        simp [hperm.mem_iff, hu]
      rw [hold, hnew, hperm.length_eq, List.length_append, ← hsplits]
      rfl
    · have hnew : [u].countP (· ∈ chain z) = 0 := by simp [hu]
      rw [putBehind_of_not_mem hu, hnew]
      exact hsplits

end Unrolled

/-- Whatever was split, the chains are there, and each split has used up some of the weight of the
predicates. -/
theorem Splits.unrolled (hp : p.CanSplit) (h : Splits p us q) : q.CanSplit ∧
    (∀ v ∈ us, v ∈ q.graph.ids) ∧ us.length + q.total 0 = p.total 0 ∧
    ∃ chain, Unrolled p us q chain := by
  induction h with
  | start => exact ⟨hp, by simp, Nat.zero_add _, _, Unrolled.start⟩
  | next _ hstep ih =>
    obtain ⟨hq, hus, htotal, chain, hchain⟩ := ih
    obtain ⟨w, name, f, l, g, htwo⟩ := hstep.inTwo hq
    have hwf := hq.sound.wellFormed
    refine ⟨htwo.fit, fun v hv => ?_, ?_, _, hchain.next hp.sound.wellFormed hwf hus htwo⟩
    · rw [htwo.ids]
      rcases List.mem_append.mp hv with hv | hv
      · exact List.mem_append_left _ (hus v hv)
      · rw [List.mem_singleton.mp hv]
        exact List.mem_append_left _ (htwo.mem_ids hwf)
    · have hweight := htwo.cascade.total_split (k := 0) hwf htwo.first htwo.second htwo.ids
      rw [List.length_append, List.length_singleton]
      omega

/-! ## When no conjunction is left -/

theorem nothingLeft_splitFilter : NothingLeft Rule.splitFilter q ↔
    ∀ x name f, q.IsFilter x name f → f.isConjunction = false := by
  constructor
  · intro hn x name f hx
    obtain ⟨pattern, hchain, hsingle⟩ := Pattern.exists_single .filter
    refine Bool.eq_false_iff.mpr fun hconj => hn ⟨[x]⟩ ?_ q ?_
    · exact ⟨pattern, x, hchain, hsingle.exists_match hx.hasType⟩
    · rw [Rule.splitFilter_check rfl hx, hconj]
  · intro h m hm r hc
    obtain ⟨u, name, f, hanchor, hu⟩ := Rule.splitFilter_matches hm
    rw [Rule.splitFilter_check hanchor hu, h u name f hu] at hc
    cases (EStateM.Result.ok.inj hc).1

theorem nothingLeft_of_toList (hq : q.graph.WellFormed)
    (h : ∀ x ∈ q.toList, x.2.operation.predicate?.any isConjunction = false) :
    NothingLeft Rule.splitFilter q := by
  refine nothingLeft_splitFilter.mpr fun x name f hx => ?_
  obtain ⟨op, hop, ho, -⟩ := hx.operator?
  have hnone := h (x, op) (hq.mem_toList_iff.mpr hop)
  rw [ho] at hnone
  exact hnone

/-- The expressions on which no filter can be split are conjuncts. -/
theorem Carry.conjuncts_eq (hn : NothingLeft Rule.splitFilter q) (h : q.Carry name xs es) :
    es.flatMap Expr.conjuncts = es := by
  induction xs generalizing name es with
  | nil =>
    cases es with
    | nil => rfl
    | cons e es => exact h.elim
  | cons x xs ih =>
    cases es with
    | nil => exact h.elim
    | cons e es =>
      obtain ⟨⟨f, hf, hlaid⟩, hrest⟩ := h
      have hzero : e.conjunctions = 0 := by
        by_contra hpos
        have hand := Expr.conjunctions_pos_iff.mp (Nat.pos_of_ne_zero hpos)
        have hconj := (isConjunction_iff_toExpr hlaid.sound hlaid.valid hlaid.toExpr).mpr hand
        rw [nothingLeft_splitFilter.mp hn _ _ _ hf] at hconj
        cases hconj
      rw [List.flatMap_cons, Expr.conjuncts_eq_self hzero, ih hrest]
      rfl

/-- A filter has then been split once for each conjunction at the top of its predicate, and its
chain holds the conjuncts one by one. -/
theorem Unrolled.exhausted (h : Unrolled p us q chain) (hp : p.graph.WellFormed)
    (hn : NothingLeft Rule.splitFilter q) (hz : p.IsFilter z name f) (hf : LaidOut f e) :
    q.Carry name (chain z) e.conjuncts ∧ us.countP (· ∈ chain z) = e.conjunctions := by
  obtain ⟨es, hes, hconj⟩ := h.filter z name f e hz hf
  rw [hes.conjuncts_eq hn] at hconj
  rw [hconj] at hes
  have hsplits := h.splits z (mem_ids_of_isFilter hp hz)
  rw [hes.length_eq, Expr.length_conjuncts] at hsplits
  exact ⟨hes, Nat.succ.inj hsplits⟩

/-! ## All orders lead to the same plan -/

/-- The operators are the same but for what was derived, or filters of one name whose predicates are
laid out as the same expression. -/
def SameMeaning (a b : Operator) : Prop :=
  a.core = b.core ∨ ∃ name f g e, a.core = { name, operation := .filter f } ∧
    b.core = { name, operation := .filter g } ∧ LaidOut f e ∧ LaidOut g e

theorem Chained.map (h : q.Chained ins xs outs)
    (h' : q'.Chained (ins.map φ) (xs.map φ) (outs.map φ)) : ∀ x ∈ xs,
      q'.graph.successors (φ x) = (q.graph.successors x).map φ ∧
        q'.graph.predecessors (φ x) = (q.graph.predecessors x).map φ := by
  induction xs generalizing ins with
  | nil => exact h.elim
  | cons x xs ih =>
    cases xs with
    | nil =>
      obtain ⟨hpre, hsuc⟩ := h
      obtain ⟨hpre', hsuc'⟩ := h'
      rintro v hv
      rw [List.mem_singleton.mp hv, hpre, hsuc]
      exact ⟨hsuc', hpre'⟩
    | cons y ys =>
      obtain ⟨hpre, hsuc, hrest⟩ := h
      obtain ⟨hpre', hsuc', hrest'⟩ := h'
      rintro v hv
      rcases List.mem_cons.mp hv with rfl | hv
      · rw [hpre, hsuc]
        exact ⟨hsuc', hpre'⟩
      · exact ih hrest hrest' v hv

theorem Carry.map (h : q.Carry name xs es) (h' : q'.Carry name (xs.map φ) es) : ∀ x ∈ xs,
    ∃ name f g e, q.IsFilter x name f ∧ q'.IsFilter (φ x) name g ∧ LaidOut f e ∧ LaidOut g e := by
  induction xs generalizing name es with
  | nil => exact fun x hx => absurd hx List.not_mem_nil
  | cons x xs ih =>
    cases es with
    | nil => exact h.elim
    | cons e es =>
      obtain ⟨⟨f, hf, hfe⟩, hrest⟩ := h
      obtain ⟨⟨g, hg, hge⟩, hrest'⟩ := h'
      rintro v hv
      rcases List.mem_cons.mp hv with rfl | hv
      · exact ⟨name, f, g, e, hf, hg, hfe, hge⟩
      · exact ih hrest hrest' v hv

/-- Lists of the same lengths are renamed into each other if nothing occurs twice in the first
ones. -/
theorem exists_map_eq {ids : List NodeId} (hn : (ids.flatMap chain).Nodup)
    (hlen : ∀ z ∈ ids, (chain z).length = (chain' z).length) :
    ∃ φ : NodeId → NodeId, ∀ z ∈ ids, (chain z).map φ = chain' z := by
  induction ids with
  | nil => exact ⟨id, fun z hz => absurd hz List.not_mem_nil⟩
  | cons a ids ih =>
    rw [List.flatMap_cons, List.nodup_append] at hn
    obtain ⟨hna, hn, hdisjoint⟩ := hn
    obtain ⟨ψ, hψ⟩ := ih hn fun z hz => hlen z (List.mem_cons_of_mem a hz)
    refine ⟨fun x => if x ∈ chain a then (chain' a).getD ((chain a).idxOf x) x else ψ x,
      fun z hz => ?_⟩
    by_cases hza : z = a
    · subst hza
      refine List.ext_getElem (by rw [List.length_map, hlen z hz]) fun i hi hi' => ?_
      rw [List.length_map] at hi
      simp [hna.idxOf_getElem i hi, List.getElem?_eq_getElem hi']
    · have hz := (List.mem_cons.mp hz).resolve_left hza
      rw [← hψ z hz]
      refine List.map_congr_left fun x hx => if_neg fun hxa => ?_
      exact hdisjoint x hxa x (List.mem_flatMap.mpr ⟨z, hz, hx⟩) rfl

/-- The chains that the filters have become in two plans hold the same expressions. -/
structure Matching (p q q' : Plan) (us us' : List NodeId) (chain chain' : NodeId → List NodeId) :
    Prop where
  left : Unrolled p us q chain
  right : Unrolled p us' q' chain'
  carry : ∀ z name f, p.IsFilter z name f →
    ∃ es, q.Carry name (chain z) es ∧ q'.Carry name (chain' z) es

namespace Matching

variable (h : Matching p q q' us us' chain chain') (hp : p.graph.WellFormed)

include h

/-- The chains are renamed into each other. The operators of `p` stay, and the ends of chains become
ends of chains. -/
theorem exists_renaming (hq : q.graph.WellFormed) : ∃ φ : NodeId → NodeId, ∀ z ∈ p.graph.ids,
    (chain z).map φ = chain' z ∧ φ z = z ∧ φ ((chain z).getLastD z) = (chain' z).getLastD z := by
  have hlen : ∀ z ∈ p.graph.ids, (chain z).length = (chain' z).length := by
    intro z hz
    by_cases hfilter : p.HasType z .filter
    · obtain ⟨name, f, hf⟩ := hfilter.isFilter
      obtain ⟨es, hc, hc'⟩ := h.carry z name f hf
      rw [hc.length_eq, hc'.length_eq]
    · rw [(h.left.other z hz hfilter).1, (h.right.other z hz hfilter).1]
  obtain ⟨φ, hφ⟩ := exists_map_eq (h.left.nodup hq) hlen
  refine ⟨φ, fun z hz => ⟨hφ z hz, ?_, ?_⟩⟩
  · have hmap := congrArg List.head? (hφ z hz)
    rw [List.head?_map, h.left.head z hz, h.right.head z hz] at hmap
    exact Option.some.inj hmap
  · rw [← hφ z hz, List.getLastD_eq_getLast?, List.getLastD_eq_getLast?, List.getLast?_map,
      List.getLast?_eq_some_getLast (h.left.chain_ne_nil hz)]
    rfl

variable (hφ : ∀ z ∈ p.graph.ids,
  (chain z).map φ = chain' z ∧ φ z = z ∧ φ ((chain z).getLastD z) = (chain' z).getLastD z)

include hφ

theorem perm_ids : (q.graph.ids.map φ).Perm q'.graph.ids := by
  refine (h.left.ids.map φ).trans ?_
  rw [List.map_flatMap, List.flatMap_congr fun z hz => (hφ z hz).1]
  exact h.right.ids.symm

include hp

theorem edges (hz : z ∈ p.graph.ids) (hx : x ∈ chain z) :
    q'.graph.successors (φ x) = (q.graph.successors x).map φ ∧
      q'.graph.predecessors (φ x) = (q.graph.predecessors x).map φ := by
  have hins : ((p.graph.predecessors z).map fun y => (chain y).getLastD y).map φ =
      (p.graph.predecessors z).map fun y => (chain' y).getLastD y := by
    rw [List.map_map]
    exact List.map_congr_left fun y hy => (hφ y ((hp.mem_ids y).mpr (hp.source hy))).2.2
  have houts : (p.graph.successors z).map φ = p.graph.successors z := by
    refine (List.map_congr_left fun y hy => ?_).trans (List.map_id _)
    exact (hφ y ((hp.mem_ids y).mpr (hp.target hy))).2.1
  refine (h.left.chained z hz).map ?_ x hx
  rw [hins, houts, (hφ z hz).1]
  exact h.right.chained z hz

omit hp in
theorem content {a : Operator} (hz : z ∈ p.graph.ids) (hx : x ∈ chain z)
    (ha : q.operator? x = some a) : ∃ b, q'.operator? (φ x) = some b ∧ SameMeaning a b := by
  have hcore : q.core? x = some a.core := by rw [core?, ha]; rfl
  by_cases hfilter : p.HasType z .filter
  · obtain ⟨name, f, hf⟩ := hfilter.isFilter
    obtain ⟨es, hc, hc'⟩ := h.carry z name f hf
    rw [← (hφ z hz).1] at hc'
    obtain ⟨name, f, g, e, hf, hg, hfe, hge⟩ := hc.map hc' x hx
    obtain ⟨b, hb, hbcore⟩ := Option.map_eq_some_iff.mp hg
    exact ⟨b, hb, .inr ⟨name, f, g, e, Option.some.inj (hcore.symm.trans hf), hbcore, hfe, hge⟩⟩
  · obtain ⟨hchain, hsame⟩ := h.left.other z hz hfilter
    obtain ⟨-, hsame'⟩ := h.right.other z hz hfilter
    rw [hchain, List.mem_singleton] at hx
    rw [hx, hsame, ← hsame'] at hcore
    obtain ⟨b, hb, hbcore⟩ := Option.map_eq_some_iff.mp hcore
    rw [hx, (hφ z hz).2.1]
    exact ⟨b, hb, .inl hbcore.symm⟩

theorem isomorphism (hq : q.graph.WellFormed) (hq' : q'.graph.WellFormed) :
    Isomorphism SameMeaning q.graph q'.graph φ := by
  have hids := h.perm_ids hφ
  have hchain : ∀ x, q.graph.contains x = true → ∃ z ∈ p.graph.ids, x ∈ chain z := fun x hx =>
    List.mem_flatMap.mp (h.left.ids.mem_iff.mp ((hq.mem_ids x).mpr hx))
  refine ⟨⟨fun x hx => ?_, fun x hx y hy heq => ?_, fun y hy => ?_⟩, fun x a ha => ?_,
    fun x hx => ?_, fun x hx => ?_⟩
  · exact (hq'.mem_ids _).mp (hids.mem_iff.mp (List.mem_map_of_mem ((hq.mem_ids x).mpr hx)))
  · exact List.inj_on_of_nodup_map (hids.nodup_iff.mpr hq'.ids_nodup) ((hq.mem_ids x).mpr hx)
      ((hq.mem_ids y).mpr hy) heq
  · obtain ⟨x, hx, rfl⟩ := List.mem_map.mp (hids.mem_iff.mpr ((hq'.mem_ids y).mpr hy))
    exact ⟨x, (hq.mem_ids x).mp hx, rfl⟩
  · obtain ⟨z, hz, hxz⟩ := hchain x (contains_of_content? ha)
    exact h.content hφ hz hxz ha
  · obtain ⟨z, hz, hxz⟩ := hchain x hx
    exact (h.edges hp hφ hz hxz).1
  · obtain ⟨z, hz, hxz⟩ := hchain x hx
    exact (h.edges hp hφ hz hxz).2

end Matching

/-- Splitting filters comes to an end, whatever is split, and every match that passes the check can
be split into filters whose predicates are nested less deeply. When nothing is left to split, each
filter has been split once for each conjunction at the top of its predicate and has become a chain
that holds the conjuncts from left to right. All orders lead to the same plan. -/
theorem splitFilter_normalizes (hp : p.Sound) (hvalid : p.validate = .ok ()) (hroom : p.HasRoom)
    (hbuilt : ∀ z name f, p.IsFilter z name f → ∃ e : Expr, e.size < 2 ^ 64 ∧ ofExpr e = .ok f)
    (hrun : Splits p us q) :
    us.length ≤ p.total 0 ∧
      (∀ m s, Rule.splitFilter.Matches q m → Rule.splitFilter.check m q = .ok true s →
        ∃ region r u w name f l g, Rule.splitFilter.transform m s = .ok region r ∧
          m.anchor = .ok u ∧ Splits p (us ++ [u]) r ∧ q.IsFilter u name f ∧ r.IsFilter u name l ∧
          r.IsFilter w none g ∧ l.conjunctionDepth < f.conjunctionDepth ∧
          g.conjunctionDepth < f.conjunctionDepth) ∧
      (NothingLeft Rule.splitFilter q →
        (∃ chain, Unrolled p us q chain ∧ ∀ z name f e, p.IsFilter z name f → e.size < 2 ^ 64 →
          ofExpr e = .ok f →
            q.Carry name (chain z) e.conjuncts ∧ us.countP (· ∈ chain z) = e.conjunctions) ∧
        ∀ us' q', Splits p us' q' → NothingLeft Rule.splitFilter q' →
          ∃ φ, Isomorphism SameMeaning q.graph q'.graph φ) := by
  have hv := (validate_eq_ok hp.wellFormed hp.formulas).mp hvalid
  have hfit := hroom.canSplit hp hv
  have hwf := hp.wellFormed
  obtain ⟨hq, -, htotal, chain, hchain⟩ := hrun.unrolled hfit
  refine ⟨by omega, fun m s hm hc => ?_, fun hn => ⟨⟨chain, hchain, ?_⟩, ?_⟩⟩
  · obtain ⟨rfl, u, w, name, f, l, g, region, r, hanchor, hsplit, htwo⟩ := exists_inTwo hq hm hc
    have hdepth := htwo.cascade.conjunction.conjunctionDepth_lt
    exact ⟨region, r, u, w, name, f, l, g, hsplit, hanchor,
      hrun.next ⟨m, hanchor, hm, s, region, hc, hsplit⟩, htwo.whole, htwo.first, htwo.second,
      hdepth.1, hdepth.2⟩
  · intro z name f e hz hsize hof
    exact hchain.exhausted hwf hn hz (laidOut_ofExpr hsize hof)
  · intro us' q' hrun' hn'
    obtain ⟨hq', -, -, chain', hchain'⟩ := hrun'.unrolled hfit
    have hmatching : Matching p q q' us us' chain chain' := by
      refine ⟨hchain, hchain', fun z name f hz => ?_⟩
      obtain ⟨e, hsize, hof⟩ := hbuilt z name f hz
      have hlaid := laidOut_ofExpr hsize hof
      exact ⟨e.conjuncts, (hchain.exhausted hwf hn hz hlaid).1,
        (hchain'.exhausted hwf hn' hz hlaid).1⟩
    obtain ⟨φ, hφ⟩ := hmatching.exists_renaming hq.sound.wellFormed
    exact ⟨φ, hmatching.isomorphism hwf hφ hq.sound.wellFormed hq'.sound.wellFormed⟩

/-- What the filter of `flagged` keeps rows by. -/
def threeFlags : Expr :=
  .binary .and (.binary .and (.column 0 0 none) (.column 0 1 none)) (.column 0 2 none)

/-- A named filter with a predicate that can be split twice. -/
def flagged : AdmittedPlan := .make (do
  let flag (name : String) : Field := { name := some name, type := .boolean }
  let columns := [flag "a", flag "b", flag "c"]
  let load ← append { operation := .load { location := "/in", declared := some columns } } []
  let kept ← append
    { name := some "kept", operation := .filter ((ofExpr threeFlags).toOption.getD {}) } [load]
  append { operation := .store "/out" } [kept]) (by decide +kernel)

/-- The plan in which the filter was split. -/
def afterSplit (u : NodeId) (p : Plan) : Plan :=
  Pass.after (Rule.splitFilter.transform ⟨[u]⟩) (Pass.after (Rule.splitFilter.check ⟨[u]⟩) p)

/-- The filter is split and keeps a conjunction, which is split next. -/
theorem flagged_normalizes : ∃ q chain, Splits flagged.plan [⟨1⟩, ⟨1⟩] q ∧
    Unrolled flagged.plan [⟨1⟩, ⟨1⟩] q chain ∧ q.Carry (some "kept") (chain ⟨1⟩)
      [.column 0 0 none, .column 0 1 none, .column 0 2 none] := by
  have hfirst : SplitsAt ⟨1⟩ flagged.plan (flagged.plan.afterSplit ⟨1⟩) := ⟨⟨[⟨1⟩]⟩, rfl,
    Rule.appliesTo_of_result (b := ⟨1⟩) (by decide +kernel) (by decide +kernel) (by decide +kernel)⟩
  have hsecond : SplitsAt ⟨1⟩ (flagged.plan.afterSplit ⟨1⟩)
      ((flagged.plan.afterSplit ⟨1⟩).afterSplit ⟨1⟩) := ⟨⟨[⟨1⟩]⟩, rfl,
    Rule.appliesTo_of_result (b := ⟨1⟩) (by decide +kernel) (by decide +kernel) (by decide +kernel)⟩
  have hrun : Splits flagged.plan [⟨1⟩, ⟨1⟩] _ := .next (.next .start hfirst) hsecond
  -- the only filter of the plan
  have hkept : flagged.plan.IsFilter ⟨1⟩ (some "kept") ((ofExpr threeFlags).toOption.getD {}) := by
    with_unfolding_all rfl
  have hof : ofExpr threeFlags = .ok ((ofExpr threeFlags).toOption.getD {}) := rfl
  have honly : ∀ z, flagged.plan.HasType z .filter → z = ⟨1⟩ := by
    intro z hz
    have hmem : z ∈ flagged.plan.graph.ids.filter fun z =>
        (flagged.plan.operator? z).map Operator.type == some .filter := by
      obtain ⟨op, hop, htype⟩ := hz
      refine List.mem_filter.mpr ⟨?_, by simp [hop, htype]⟩
      exact (flagged.sound.wellFormed.mem_ids z).mpr (contains_of_operator? hop)
    rw [show List.filter _ _ = [⟨1⟩] by decide +kernel] at hmem
    exact List.mem_singleton.mp hmem
  have hnormal := splitFilter_normalizes flagged.sound flagged.valid flagged.hasRoom
    (fun z name f hz => by
      obtain rfl := honly z hz.hasType
      exact ⟨threeFlags, by decide, (hz.unique hkept).1 ▸ hof⟩) hrun
  have hnone : NothingLeft Rule.splitFilter ((flagged.plan.afterSplit ⟨1⟩).afterSplit ⟨1⟩) :=
    nothingLeft_of_toList (by decide +kernel) (by decide +kernel)
  obtain ⟨⟨chain, hchain, hcarry⟩, -⟩ := hnormal.2.2 hnone
  exact ⟨_, chain, hrun, hchain, (hcarry ⟨1⟩ _ _ threeFlags hkept (by decide) hof).1⟩

end Plan

end Dataflow

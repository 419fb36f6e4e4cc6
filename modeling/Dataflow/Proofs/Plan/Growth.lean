import Dataflow.Proofs.Graph.Reach
import Dataflow.Proofs.Plan.History

/-!
# Plans that grow

Statements only add to a plan: operators behind the ones that there are, with edges that lead into
the new operators. Such a step keeps what was there (`Grows`), and since nothing leads out of an
operator when its inputs are connected, it closes no cycle, so that the plan stays sound
(`Sown`).
-/

namespace Dataflow

@[simp] theorem Operation.type_withUids (o : Operation) (supply : UidSupply) :
    (o.withUids supply).1.type = o.type := by
  cases o with
  | load l =>
    simp only [withUids]
    split
    · split <;> rfl
    · rfl
  | _ => rfl

namespace Plan

open Dataflow.Graph

variable {p q r : Plan} {a b x z id : NodeId} {op : Operator} {n m : Nat} {e : Error}

/-! ## New edges -/

/-- The plan has an edge from `a` to `b` behind the other outputs and inputs, and is otherwise the
same. -/
structure Linked (a b : NodeId) (p q : Plan) : Prop where
  same : SameOperators p q
  wellFormed : q.graph.WellFormed
  coherent : q.Coherent
  successors : ∀ z, q.graph.successors z =
    if z = a then p.graph.successors a ++ [b] else p.graph.successors z
  predecessors : ∀ z, q.graph.predecessors z =
    if z = b then p.graph.predecessors b ++ [a] else p.graph.predecessors z

/-- What an edge needs. -/
structure CanLink (p : Plan) (a b : NodeId) : Prop where
  check : p.checkConnect a b = .ok ()
  source : p.graph.contains a = true
  target : p.graph.contains b = true
  ne : a ≠ b
  new : b ∉ p.graph.successors a

theorem CanLink.connect (h : p.CanLink a b) (hwf : p.graph.WellFormed) (hp : p.Coherent) :
    ∃ q, Plan.connect a b p = .ok () q ∧ Linked a b p q := by
  obtain ⟨g, hrun, hg, hdrawn⟩ :=
    hwf.exists_connectAt h.source h.target h.ne h.new (le_refl _) (le_refl _)
  obtain ⟨-, hsuc, hpre, -⟩ := connect_views (g := p.graph) hrun
  obtain ⟨q, hq, halike, hcoh⟩ := connectAt_spec hwf hp h.check hrun
  exact ⟨q, connect_eq_connectAt.trans hq,
    (sameOperators_of_sameNodes hdrawn.nodes).trans halike.sameOperators, halike.wellFormed hg,
    hcoh, fun z => (halike.successors z).trans (hsuc z),
    fun z => (halike.predecessors z).trans (hpre z)⟩

theorem canLink_of_connect {u : Unit} (hrun : Plan.connect a b p = .ok u q) : p.CanLink a b := by
  rw [connect_eq_connectAt] at hrun
  unfold Plan.connectAt at hrun
  rw [Pass.bind_of_ok Pass.get_apply] at hrun
  obtain ⟨_, p', hresult, hrun⟩ := Pass.bind_eq_ok.mp hrun
  obtain ⟨hcheck, rfl⟩ := ofResult_eq_ok.mp hresult
  obtain ⟨_, _, hgraph, -⟩ := Pass.bind_eq_ok.mp hrun
  obtain ⟨g, hg, -⟩ := onGraph_eq_ok.mp hgraph
  obtain ⟨⟨ha, hb, hab, hnew, -⟩, -⟩ := connectAt_eq_ok.mp (perform_eq_ok.mp hg)
  exact ⟨hcheck, ha, hb, hab, hnew⟩

/-- An edge that is refused changes nothing. -/
theorem connect_eq_error (hrun : Plan.connect a b p = .error e q) : q = p := by
  rw [connect_eq_connectAt] at hrun
  unfold Plan.connectAt at hrun
  rw [Pass.bind_of_ok Pass.get_apply] at hrun
  rcases Pass.bind_eq_error.mp hrun with hcheck | ⟨_, p', hcheck, hrun⟩
  · exact (ofResult_eq_error.mp hcheck).2.symm
  · obtain ⟨-, rfl⟩ := ofResult_eq_ok.mp hcheck
    rcases Pass.bind_eq_error.mp hrun with hgraph | ⟨_, _, -, hrun⟩
    · unfold onGraph perform step at hgraph
      cases hg : p.graph.connectAt a (p.graph.successors a).length b
          (p.graph.predecessors b).length <;> simp [hg, Except.map] at hgraph
      exact hgraph.2.symm
    · simp at hrun

theorem linked_of_connect {u : Unit} (hwf : p.graph.WellFormed) (hp : p.Coherent)
    (hrun : Plan.connect a b p = .ok u q) : Linked a b p q := by
  obtain ⟨q', hq', hlinked⟩ := (canLink_of_connect hrun).connect hwf hp
  obtain ⟨-, rfl⟩ : () = u ∧ q' = q := by simpa [hq'] using hrun
  exact hlinked

/-! ## Sound plans -/

/-- A plan on which requests end as they should, with so many keys handed out at most. -/
structure Sown (n : Nat) (p : Plan) : Prop extends Ready p where
  keysBelow : p.graph.KeysBelow
  nextKey : p.graph.nextKey.toNat ≤ n

namespace Sown

theorem mono (h : p.Sown n) (hnm : n ≤ m) : p.Sown m :=
  { h with nextKey := Nat.le_trans h.nextKey hnm }

theorem extended (h : p.Sown n) (hq : Extends p q) : q.Sown n where
  toReady := h.toReady.extends hq
  keysBelow := hq.alike.keysBelow h.keysBelow
  nextKey := hq.alike.nextKey ▸ h.nextKey

/-- An edge may be added where no path leads back. -/
theorem linked (h : p.Sown n) (hback : p.graph.reaches b a = false) (hq : Linked a b p q) :
    q.Sown n where
  wellFormed := hq.wellFormed
  coherent := hq.coherent
  acyclic := by
    refine h.acyclic.of_new_edge hback fun x y hy => ?_
    rw [hq.successors] at hy
    split_ifs at hy with hx
    · rcases List.mem_append.mp hy with hy | hy
      · exact .inl (hx ▸ hy)
      · exact .inr ⟨hx, by simpa using hy⟩
    · exact .inl hy
  keysBelow := h.keysBelow.congr hq.same.ids hq.same.nextKey
  nextKey := hq.same.nextKey ▸ h.nextKey

theorem add (h : p.Sown n) (hn : n + 1 < 2 ^ 64) (op : Operator) : (p.add op).2.Sown (n + 1) := by
  have hkey : p.graph.nextKey.toNat + 1 < 2 ^ 64 := by
    have := h.nextKey
    omega
  have htidy := Tidy.add ⟨h.wellFormed, h.keysBelow, rfl, h.coherent⟩ hkey op
  refine ⟨⟨htidy.wellFormed, ?_, htidy.coherent⟩, htidy.keysBelow, ?_⟩
  · exact h.acyclic.of_subset fun x y hy => by
      change y ∈ (p.graph.add _).2.successors x at hy
      rwa [successors_add] at hy
  · exact htidy.nextKey.symm ▸ Nat.add_le_add_right h.nextKey 1

theorem empty (uids : UidSupply) : Sown 0 { uids } where
  wellFormed := .empty
  acyclic := .empty
  coherent := (Tidy.empty uids).coherent
  keysBelow := .empty
  nextKey := le_refl _

end Sown

/-! ## Growth -/

/-- What was there is still there, with the same inputs; what is new comes behind it. -/
structure Grows (p q : Plan) : Prop where
  ids : p.graph.ids <+: q.graph.ids
  core? : ∀ z, p.graph.contains z = true → q.core? z = p.core? z
  predecessors : ∀ z, p.graph.contains z = true →
    q.graph.predecessors z = p.graph.predecessors z
  successors : ∀ z, p.graph.successors z <+: q.graph.successors z

namespace Grows

theorem of_alike (h : Alike p q) : Grows p q where
  ids := h.ids ▸ List.prefix_rfl
  core? _ _ := h.core?
  predecessors z _ := h.predecessors z
  successors z := h.successors z ▸ List.prefix_rfl

theorem contains (h : Grows p q) (hz : p.graph.contains z = true) :
    q.graph.contains z = true := by
  rw [contains_eq_core?, h.core? z hz, ← contains_eq_core?, hz]

theorem trans (h : Grows p q) (h' : Grows q r) : Grows p r where
  ids := h.ids.trans h'.ids
  core? z hz := (h'.core? z (h.contains hz)).trans (h.core? z hz)
  predecessors z hz := (h'.predecessors z (h.contains hz)).trans (h.predecessors z hz)
  successors z := (h.successors z).trans (h'.successors z)

theorem hasType {t : OperatorType} (h : Grows p q) (hz : p.HasType z t) : q.HasType z t := by
  obtain ⟨op, hop, rfl⟩ := hasType_iff_core?.mp hz
  have hc : p.graph.contains z = true := by rw [contains_eq_core?, hop]; rfl
  exact hasType_iff_core?.mpr ⟨op, (h.core? z hc).trans hop, rfl⟩

end Grows

/-! ## Appending operators -/

/-- The operator that is added for `op`. -/
def numbered (p : Plan) (op : Operator) : Operator :=
  { op with operation := (op.operation.withUids p.uids).1, memo := none }

/-- The key of the operator that is added next. -/
def next (p : Plan) : NodeId := ⟨p.graph.nextKey⟩

theorem Sown.fresh (h : p.Sown n) : p.graph.contains p.next = false :=
  fresh_of_keysBelow h.wellFormed h.keysBelow

theorem Sown.leaf_add (h : p.Sown n) (op : Operator) :
    (p.add op).2.graph.successors p.next = [] := by
  change (p.graph.add _).2.successors _ = _
  rw [successors_add, successors_of_not_contains h.fresh]

theorem Sown.root_add (h : p.Sown n) (op : Operator) :
    (p.add op).2.graph.predecessors p.next = [] := by
  change (p.graph.add _).2.predecessors _ = _
  rw [predecessors_add, predecessors_of_not_contains h.fresh]

theorem core?_add : (p.add op).2.core? z =
    if z = p.next then some (p.numbered op).core else p.core? z := by
  change ((p.graph.add (p.numbered op)).2.content? z).map Operator.core = _
  rw [content?_add]
  show Option.map Operator.core (if z = p.next then _ else _) = _
  split_ifs <;> rfl

/-- What leads into one operator was added to the plan `p`, and nothing else. -/
structure Fed (id : NodeId) (p q : Plan) : Prop where
  same : SameOperators p q
  predecessors : ∀ z, z ≠ id → q.graph.predecessors z = p.graph.predecessors z
  successors : ∀ z, p.graph.successors z <+: q.graph.successors z
  leaf : q.graph.successors id = []

theorem Fed.refl (h : p.graph.successors id = []) : Fed id p p :=
  ⟨.refl, fun _ _ => rfl, fun _ => List.prefix_rfl, h⟩

theorem Fed.linked (h : p.graph.successors id = []) (ha : a ≠ id) (hq : Linked a id p q) :
    Fed id p q where
  same := hq.same
  predecessors z hz := by rw [hq.predecessors, if_neg hz]
  successors z := by
    rw [hq.successors]
    split_ifs with hz
    · rw [hz]
      exact List.prefix_append _ _
    · exact List.prefix_rfl
  leaf := by rw [hq.successors, if_neg ha.symm, h]

theorem Fed.trans (h : Fed id p q) (h' : Fed id q r) : Fed id p r where
  same := h.same.trans h'.same
  predecessors z hz := (h'.predecessors z hz).trans (h.predecessors z hz)
  successors z := (h.successors z).trans (h'.successors z)
  leaf := h'.leaf

/-- Connecting inputs to an operator without outputs, whether or not all of them can be. -/
theorem connectAll_keeps (id : NodeId) : ∀ (inputs : List NodeId) {p : Plan}, p.Sown n →
    p.graph.successors id = [] →
    (Pass.after (inputs.forM (connect · id)) p).Sown n ∧
      Fed id p (Pass.after (inputs.forM (connect · id)) p)
  | [], p, hp, hout => ⟨hp, .refl hout⟩
  | a :: inputs, p, hp, hout => by
    rw [Pass.forM_cons, Pass.after_bind]
    cases hrun : connect a id p with
    | error e q =>
      obtain rfl := connect_eq_error hrun
      exact ⟨hp, .refl hout⟩
    | ok u q =>
      have hne := (canLink_of_connect hrun).ne
      have hlinked := linked_of_connect hp.wellFormed hp.coherent hrun
      have hback := reaches_eq_false hout hne.symm
      have hfed := Fed.linked hout hne hlinked
      obtain ⟨hq, hrest⟩ := connectAll_keeps id inputs (hp.linked hback hlinked) hfed.leaf
      exact ⟨hq, hfed.trans hrest⟩

theorem connectAll_eq_ok {u : Unit} : ∀ (inputs : List NodeId) {p : Plan}, p.Sown n →
    p.graph.successors id = [] → inputs.forM (connect · id) p = .ok u q →
    q.graph.predecessors id = p.graph.predecessors id ++ inputs
  | [], p, _, _, hrun => by
    obtain rfl : p = q := by simpa using hrun
    simp
  | a :: inputs, p, hp, hout, hrun => by
    obtain ⟨_, p₁, ha, hrun⟩ := Pass.bind_eq_ok.mp (Pass.forM_cons ▸ hrun)
    have hne := (canLink_of_connect ha).ne
    have hlinked := linked_of_connect hp.wellFormed hp.coherent ha
    have hback := reaches_eq_false hout hne.symm
    rw [connectAll_eq_ok inputs (hp.linked hback hlinked) (Fed.linked hout hne hlinked).leaf hrun,
      hlinked.predecessors, if_pos rfl, List.append_assoc]
    rfl

theorem append_apply (inputs : List NodeId) : append op inputs p =
    (do inputs.forM (connect · p.next); return p.next) (p.add op).2 :=
  Pass.bind_of_ok rfl

theorem append_after (inputs : List NodeId) : Pass.after (append op inputs) p =
    Pass.after (inputs.forM (connect · p.next)) (p.add op).2 := by
  rw [Pass.after, append_apply, ← Pass.after, Pass.after_bind, Pass.after]
  cases inputs.forM (connect · p.next) (p.add op).2 <;> rfl

/-- Adding an operator with inputs, whether or not all of them can be connected. -/
theorem append_keeps (hp : p.Sown n) (hn : n + 1 < 2 ^ 64) (op : Operator)
    (inputs : List NodeId) :
    (Pass.after (append op inputs) p).Sown (n + 1) ∧
      Fed p.next (p.add op).2 (Pass.after (append op inputs) p) := by
  have hadded := hp.add hn op
  have hleaf := hp.leaf_add op
  obtain ⟨hq, hfed⟩ := connectAll_keeps p.next inputs hadded hleaf
  rw [append_after]
  exact ⟨hq, hfed⟩

theorem Grows.of_fed (hp : p.Sown n) (h : Fed p.next (p.add op).2 q) : Grows p q where
  ids := h.same.ids ▸ List.prefix_append _ _
  core? z hz := by
    have hne : z ≠ p.next := by
      rintro rfl
      simp [hp.fresh] at hz
    rw [h.same.core?, core?_add, if_neg hne]
  predecessors z hz := by
    have hne : z ≠ p.next := by
      rintro rfl
      simp [hp.fresh] at hz
    rw [h.predecessors z hne]
    exact predecessors_add
  successors z := by
    have hz : (p.add op).2.graph.successors z = p.graph.successors z := successors_add
    exact hz ▸ h.successors z

theorem Fed.core?_next (h : Fed p.next (p.add op).2 q) :
    q.core? p.next = some (p.numbered op).core := by
  rw [h.same.core?, core?_add, if_pos rfl]

/-- An edge that is there already is refused. -/
theorem connect_again (hcheck : p.checkConnect a b = .ok ()) (ha : p.graph.contains a = true)
    (hb : p.graph.contains b = true) (hne : a ≠ b) (hmem : b ∈ p.graph.successors a) :
    connect a b p = .error (.graph (.alreadyConnected a b)) p := by
  have hgraph : p.graph.connect a b = .error (.alreadyConnected a b) := by
    unfold Graph.connect Graph.connectAt
    simp [ha, hb, hne, isConnected_iff.mpr hmem]
  unfold connect
  rw [Pass.bind_of_ok Pass.get_apply, hcheck]
  refine Pass.bind_eq_error.mpr (.inr ⟨(), p, rfl, Pass.bind_eq_error.mpr (.inl ?_)⟩)
  simp [onGraph, perform, step, hgraph, Except.map]

/-- Inputs that produce rows can be connected to a new operator that takes as many, unless one of
them is connected twice. -/
theorem connectAll_cases {t : OperatorType} (ht : t ≠ .load) : ∀ (inputs : List NodeId)
    {p : Plan}, p.Sown n → p.graph.successors id = [] → p.HasType id t →
    (∀ a ∈ inputs, a ≠ id ∧ ∃ s, p.HasType a s ∧ s ≠ .store) →
    (t.allowsMultipleInputs = true ∨ (p.graph.predecessors id).length + inputs.length ≤ 1) →
    (∃ q, inputs.forM (connect · id) p = .ok () q) ∨
      ¬(p.graph.predecessors id ++ inputs).Nodup ∧
        ∃ a q, inputs.forM (connect · id) p = .error (.graph (.alreadyConnected a id)) q
  | [], p, _, _, _, _, _ => .inl ⟨p, rfl⟩
  | a :: inputs, p, hp, hout, hid, hinputs, hroom => by
    obtain ⟨hne, s, hs, hstore⟩ := hinputs a (by simp)
    have hca : p.graph.contains a = true := hs.contains
    have hcid : p.graph.contains id = true := hid.contains
    have hcheck : p.checkConnect a id = .ok () := by
      refine checkConnect_eq_ok hs hid hstore ht (hroom.imp_right fun hlen => ?_)
      rw [List.length_cons] at hlen
      exact List.length_eq_zero_iff.mp (by omega)
    by_cases hmem : a ∈ p.graph.predecessors id
    · refine .inr ⟨fun hnodup => (List.nodup_append'.mp hnodup).2.2 hmem (by simp), a, p, ?_⟩
      rw [Pass.forM_cons, Pass.bind_eq_error]
      exact .inl (connect_again hcheck hca hcid hne ((hp.wellFormed.edge a id).mpr hmem))
    · have hlink : p.CanLink a id :=
        ⟨hcheck, hca, hcid, hne, fun h => hmem ((hp.wellFormed.edge a id).mp h)⟩
      obtain ⟨p₁, hrun, hlinked⟩ := hlink.connect hp.wellFormed hp.coherent
      have hback := reaches_eq_false hout hne.symm
      have hpre : p₁.graph.predecessors id = p.graph.predecessors id ++ [a] := by
        rw [hlinked.predecessors, if_pos rfl]
      have hrest := connectAll_cases ht inputs (hp.linked hback hlinked)
        (Fed.linked hout hne hlinked).leaf (hlinked.same.hasType.mpr hid)
        (fun b hb => by
          obtain ⟨hbne, s, hs, hstore⟩ := hinputs b (by simp [hb])
          exact ⟨hbne, s, hlinked.same.hasType.mpr hs, hstore⟩)
        (by
          refine hroom.imp_right fun hlen => ?_
          rw [hpre, List.length_append]
          simp only [List.length_cons, List.length_nil] at hlen ⊢
          omega)
      rw [Pass.forM_cons, Pass.bind_of_ok hrun]
      rwa [hpre, List.append_assoc] at hrest

/-- An operator is added to inputs that produce rows, unless one of them is taken twice. -/
theorem append_cases (hp : p.Sown n) (hn : n + 1 < 2 ^ 64) (op : Operator)
    (ht : op.type ≠ .load) {inputs : List NodeId}
    (hinputs : ∀ a ∈ inputs, ∃ s, p.HasType a s ∧ s ≠ .store)
    (hroom : op.type.allowsMultipleInputs = true ∨ inputs.length ≤ 1) :
    (∃ q, append op inputs p = .ok p.next q) ∨
      ¬inputs.Nodup ∧ ∃ a b q, append op inputs p = .error (.graph (.alreadyConnected a b)) q := by
  have hpre := hp.root_add op
  have hleaf := hp.leaf_add op
  have hgrows : Grows p (p.add op).2 := .of_fed hp (.refl hleaf)
  have hnew : (p.add op).2.HasType p.next op.type := by
    refine hasType_iff_core?.mpr ⟨_, core?_add.trans (if_pos rfl), ?_⟩
    rw [Operator.type_core]
    exact Operation.type_withUids op.operation p.uids
  have hcases := connectAll_cases ht inputs (hp.add hn op) hleaf hnew
    (fun a ha => by
      obtain ⟨s, hs, hstore⟩ := hinputs a ha
      refine ⟨?_, s, hgrows.hasType hs, hstore⟩
      rintro rfl
      simpa [hp.fresh] using hs.contains)
    (hroom.imp_right fun hlen => by rw [hpre]; simpa using hlen)
  rw [hpre, List.nil_append] at hcases
  rw [append_apply]
  rcases hcases with ⟨q, hq⟩ | ⟨hnot, a, q, hq⟩
  · exact .inl ⟨q, by rw [Pass.bind_of_ok hq]; rfl⟩
  · exact .inr ⟨hnot, a, _, q, Pass.bind_eq_error.mpr (.inl hq)⟩

/-- An operator is added to inputs that produce rows, each of them once. -/
theorem append_succeeds (hp : p.Sown n) (hn : n + 1 < 2 ^ 64) (op : Operator)
    (ht : op.type ≠ .load) {inputs : List NodeId} (hnodup : inputs.Nodup)
    (hinputs : ∀ a ∈ inputs, ∃ s, p.HasType a s ∧ s ≠ .store)
    (hroom : op.type.allowsMultipleInputs = true ∨ inputs.length ≤ 1) :
    ∃ q, append op inputs p = .ok p.next q :=
  (append_cases hp hn op ht hinputs hroom).resolve_right fun h => h.1 hnodup

/-- What an operator is and reads that was added. -/
theorem append_eq_ok {inputs : List NodeId} (hp : p.Sown n) (hn : n + 1 < 2 ^ 64)
    (hrun : append op inputs p = .ok id q) :
    id = p.next ∧ q.Sown (n + 1) ∧ Grows p q ∧ q.core? p.next = some (p.numbered op).core ∧
      q.graph.predecessors p.next = inputs ∧ q.graph.ids = p.graph.ids ++ [p.next] := by
  obtain ⟨hq, hfed⟩ := append_keeps hp hn op inputs
  rw [show Pass.after (append op inputs) p = q by rw [Pass.after, hrun]] at hq hfed
  have hpre := hp.root_add op
  have hleaf := hp.leaf_add op
  rw [append_apply] at hrun
  obtain ⟨_, q', hall, hrun⟩ := Pass.bind_eq_ok.mp hrun
  obtain ⟨rfl, rfl⟩ : p.next = id ∧ q' = q := by simpa using hrun
  refine ⟨rfl, hq, .of_fed hp hfed, hfed.core?_next, ?_, hfed.same.ids⟩
  rw [connectAll_eq_ok inputs (hp.add hn op) hleaf hall, hpre, List.nil_append]

end Plan

end Dataflow

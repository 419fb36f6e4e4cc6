import Dataflow.Proofs.Graph.Edit
import Dataflow.Proofs.Plan.Coherent
import Dataflow.Rewrite.FilterRules

/-!
# Edits of plans

What the edits of plans by which filters are rewritten do, up to derived schemas: which operators
there are afterwards (`core?`) and which inputs each has. All of them keep a plan coherent, since
they forget the schemas behind the place of the change.
-/

namespace Dataflow.Plan

open Dataflow.Graph

variable {p q : Plan} {a b x y z id root : NodeId} {op : Operator} {f : Formula}

/-- What an operator is, apart from its derived schema. -/
def core? (p : Plan) (id : NodeId) : Option Operator := (p.operator? id).map Operator.core

theorem Alike.core? (h : Alike p q) : q.core? id = p.core? id := h.core id

theorem contains_eq_core? : p.graph.contains x = (p.core? x).isSome := by
  rw [Plan.core?, Option.isSome_map, ← content?_isSome]
  rfl

theorem core?_congr (h : q.operator? id = p.operator? id) : q.core? id = p.core? id := by
  rw [Plan.core?, h, Plan.core?]

theorem hasType_iff_core? {t : OperatorType} :
    p.HasType id t ↔ ∃ op, p.core? id = some op ∧ op.type = t := by
  constructor
  · rintro ⟨op, hop, rfl⟩
    exact ⟨op.core, by rw [Plan.core?, hop]; rfl, Operator.type_core op⟩
  · rintro ⟨c, hc, rfl⟩
    obtain ⟨op, hop, rfl⟩ := Option.map_eq_some_iff.mp hc
    exact ⟨op, hop, (Operator.type_core op).symm⟩

theorem dataInputs_of_core? (h : p.core? z = some op) :
    p.dataInputs z = if op.type = .load then [] else p.graph.predecessors z := by
  obtain ⟨op', hop, rfl⟩ := Option.map_eq_some_iff.mp h
  rw [dataInputs_of_operator? hop, Operator.type_core]

theorem dataInputs_of_none (h : p.core? z = none) : p.dataInputs z = [] := by
  rw [dataInputs_eq, Option.map_eq_none_iff.mp h]

/-! ## Coherence across changes -/

/-- After edges changed only at nodes behind `root`, forgetting the schemas behind `root` makes a
plan coherent again. -/
theorem Coherent.rewired (hp : p.Coherent) {g : Graph Operator} (hwf : p.graph.WellFormed)
    (hg : g.WellFormed) (hcontent : ∀ z, g.content? z = p.graph.content? z)
    (hpre : ∀ z, z ∉ g.descendants root → g.predecessors z = p.graph.predecessors z) :
    (Plan.invalidate { p with graph := g } root).Coherent := by
  have hop : ∀ z, operator? { p with graph := g } z = p.operator? z := hcontent
  refine hp.of_frame hwf (S := (· ∈ g.descendants root)) (fun x hx y hy => ?_)
    (fun x hx => ?_) fun x hx => ⟨?_, ?_⟩
  · by_contra hyD
    have : x ∈ g.predecessors y := by rw [hpre y hyD]; exact (hwf.edge x y).mp hy
    exact hyD (hg.mem_descendants hx ((hg.edge x y).mpr this))
  · rw [memoOf_invalidate, if_pos hx]
  · change (forgetAt { p with graph := g } (g.descendants root)).operator? x = _
    rw [operator?_forgetAt, if_neg hx, hop]
  · rw [Alike.invalidate.dataInputs]
    exact dataInputs_congr (hpre x hx) (by rw [hop])

theorem Coherent.foldl_invalidate : ∀ (ids : List NodeId) {p : Plan}, p.Coherent →
    p.graph.WellFormed → (ids.foldl Plan.invalidate p).Coherent
  | [], _, hp, _ => hp
  | _ :: ids, _, hp, hwf =>
    Coherent.foldl_invalidate ids (hp.invalidate hwf)
      (Alike.invalidate.wellFormed hwf)

theorem Alike.foldl_invalidate : ∀ (ids : List NodeId) {p : Plan},
    Alike p (ids.foldl Plan.invalidate p)
  | [], _ => .refl
  | _ :: ids, _ => Alike.invalidate.trans (Alike.foldl_invalidate ids)

/-! ## Changing an operator -/

theorem update_spec (change : Operator → Operator) (hwf : p.graph.WellFormed) (hp : p.Coherent)
    (hid : p.graph.contains id = true)
    (hmemo : ∀ op, (change op).memo = op.memo)
    (hcore : ∀ op, (change op.forget).core = (change op).core) :
    ∃ q, Plan.update id change p = .ok () q ∧ q.graph.WellFormed ∧ q.Coherent ∧
      q.graph.ids = p.graph.ids ∧ q.graph.nextKey = p.graph.nextKey ∧
      (∀ z, q.graph.successors z = p.graph.successors z) ∧
      (∀ z, q.graph.predecessors z = p.graph.predecessors z) ∧
      (∀ z, z ≠ id → q.core? z = p.core? z) ∧
      q.core? id = (p.operator? id).map fun op => (change op).core := by
  have hinv := Alike.invalidate (p := p) (x := id)
  let q : Plan := { p.invalidate id with graph := (p.invalidate id).graph.update id change }
  have hop : ∀ z, q.operator? z = if z = id then ((p.invalidate id).operator? z).map change
      else (p.invalidate id).operator? z := fun z => content?_update
  have hself := self_mem_descendants hid
  have hopInv : (p.invalidate id).operator? id = (p.operator? id).map Operator.forget := by
    change (p.forgetAt _).operator? id = _
    rw [operator?_forgetAt, if_pos hself]
  have hmemoId : q.memoOf id = none := by
    rw [memoOf, hop, if_pos rfl, hopInv]
    cases p.operator? id with
    | none => rfl
    | some op => simp [hmemo, Operator.forget]
  have hmemoOther : ∀ z, z ≠ id → q.memoOf z = (p.invalidate id).memoOf z := fun z hz => by
    rw [memoOf, hop, if_neg hz, memoOf]
  have hpre : ∀ z, q.graph.predecessors z = p.graph.predecessors z := fun z =>
    predecessors_update.trans (hinv.predecessors z)
  refine ⟨q, ?_, (hinv.wellFormed hwf).update, ?_, hinv.ids, hinv.nextKey, fun z =>
    successors_update.trans (hinv.successors z), hpre, fun z hz => ?_, ?_⟩
  · unfold Plan.update
    rw [Pass.bind_of_ok Pass.get_apply, if_pos (show p.contains id = true from hid)]
    rfl
  · refine hp.of_frame hwf (S := (· ∈ p.graph.descendants id))
      (fun x hx y hy => hwf.mem_descendants hx hy) (fun x hx => ?_) fun x hx => ?_
    · by_cases hxi : x = id
      · rw [hxi, hmemoId]
      · rw [hmemoOther x hxi, memoOf_invalidate, if_pos hx]
    · have hxi : x ≠ id := by rintro rfl; exact hx hself
      have hopx : q.operator? x = p.operator? x := by
        rw [hop, if_neg hxi]
        change (p.forgetAt _).operator? x = _
        rw [operator?_forgetAt, if_neg hx]
      exact ⟨hopx, dataInputs_congr (hpre x) (by rw [hopx])⟩
  · rw [Plan.core?, hop, if_neg hz]
    exact hinv.core z
  · rw [Plan.core?, hop, if_pos rfl, hopInv]
    cases p.operator? id with
    | none => rfl
    | some op => simp [hcore]

theorem setPredicate_spec {g : Formula} (hwf : p.graph.WellFormed) (hp : p.Coherent)
    (hop : p.operator? id = some op) (hfilter : op.operation = .filter f) :
    ∃ q, Rule.setPredicate id g p = .ok () q ∧ q.graph.WellFormed ∧ q.Coherent ∧
      q.graph.ids = p.graph.ids ∧ q.graph.nextKey = p.graph.nextKey ∧
      (∀ z, q.graph.successors z = p.graph.successors z) ∧
      (∀ z, q.graph.predecessors z = p.graph.predecessors z) ∧
      (∀ z, z ≠ id → q.core? z = p.core? z) ∧
      q.core? id = some { name := op.name, operation := .filter g } := by
  obtain ⟨q₁, hrun₁, hwf₁, hp₁, hids₁, hkey₁, hsuc₁, hpre₁, hother₁, hid₁⟩ :=
    update_spec (fun op => op) hwf hp (contains_of_operator? hop) (fun _ => rfl)
      fun _ => rfl
  rw [hop] at hid₁
  obtain ⟨op₁, hop₁, hcore₁⟩ := Option.map_eq_some_iff.mp hid₁
  have hop₁f : op₁.operation = .filter f := by
    have := congrArg Operator.operation hcore₁
    simp only [Operator.operation_core, hfilter] at this
    cases ho : op₁.operation <;> simp_all [Operation.withoutUids]
  obtain ⟨q₂, hrun₂, hwf₂, hp₂, hids₂, hkey₂, hsuc₂, hpre₂, hother₂, hid₂⟩ :=
    update_spec (fun op => { op with operation := .filter g }) hwf₁ hp₁
      (contains_of_operator? hop₁) (fun _ => rfl) fun _ => rfl
  refine ⟨q₂, ?_, hwf₂, hp₂, hids₂.trans hids₁, hkey₂.trans hkey₁, fun z =>
    (hsuc₂ z).trans (hsuc₁ z), fun z => (hpre₂ z).trans (hpre₁ z), fun z hz =>
    (hother₂ z hz).trans (hother₁ z hz), ?_⟩
  · unfold Rule.setPredicate
    rw [Pass.bind_of_ok hrun₁, Pass.bind_of_ok Pass.get_apply,
      Pass.bind_of_ok (ofResult_eq_ok.mpr ⟨operator_eq_ok.mpr hop₁, rfl⟩), hop₁f]
    exact hrun₂
  · rw [hid₂, hop₁]
    have : op₁.name = op.name := name_eq_of_core hcore₁
    simp [Operator.core, Operation.withoutUids, this]

/-! ## Adding an operator -/

/-- A new operator has no derived schema and no edges. -/
theorem Coherent.add (hp : p.Coherent) (hwf : p.graph.WellFormed) (hk : p.graph.KeysBelow)
    (op : Operator) : (p.add op).2.Coherent := by
  have hfresh := fresh_of_keysBelow hwf hk
  have hop : ∀ z, (p.add op).2.operator? z = if z = ⟨p.graph.nextKey⟩ then
      some { op with operation := (op.operation.withUids p.uids).1, memo := none }
      else p.operator? z := fun z => content?_add
  refine hp.of_frame hwf (fun x hx y hy => ?_) (fun x hx => ?_)
    fun x hx => ⟨by rw [hop, if_neg hx], ?_⟩
  · rw [hx, successors_of_not_contains hfresh] at hy
    simp at hy
  · rw [memoOf, hop, if_pos hx]; rfl
  · exact dataInputs_congr predecessors_add (by rw [hop, if_neg hx])

theorem insert_filter_spec {name : Option String} (hwf : p.graph.WellFormed) (hp : p.Coherent)
    (hk : p.graph.KeysBelow) :
    ∃ q, Plan.insert { name, operation := .filter f } p = .ok ⟨p.graph.nextKey⟩ q ∧
      q.graph.WellFormed ∧ q.Coherent ∧ q.graph.ids = p.graph.ids ++ [⟨p.graph.nextKey⟩] ∧
      q.graph.nextKey = p.graph.nextKey + 1 ∧
      (∀ z, q.graph.successors z = p.graph.successors z) ∧
      (∀ z, q.graph.predecessors z = p.graph.predecessors z) ∧
      (∀ z, z ≠ ⟨p.graph.nextKey⟩ → q.core? z = p.core? z) ∧
      q.core? ⟨p.graph.nextKey⟩ = some { name, operation := .filter f } := by
  let new : Operator := { name, operation := .filter f }
  let q : Plan := { p with graph := (p.graph.add new).2 }
  have hop : ∀ z, q.operator? z = if z = ⟨p.graph.nextKey⟩ then some new else p.operator? z :=
    fun z => content?_add
  refine ⟨q, rfl, hwf.add hk, hp.add hwf hk new, rfl, rfl, fun z => successors_add,
    fun z => predecessors_add, fun z hz => core?_congr (by rw [hop, if_neg hz]), ?_⟩
  rw [Plan.core?, hop, if_pos rfl]; rfl

/-! ## Edges -/

theorem checkConnect_eq_ok {ta tb : OperatorType} (ha : p.HasType a ta) (hb : p.HasType b tb)
    (hta : ta ≠ .store) (htb : tb ≠ .load)
    (hroom : tb.allowsMultipleInputs = true ∨ p.graph.predecessors b = []) :
    p.checkConnect a b = .ok () := by
  obtain ⟨opa, hopa, rfl⟩ := ha
  obtain ⟨opb, hopb, rfl⟩ := hb
  have hcond : (!opb.type.allowsMultipleInputs && !(p.predecessors b).isEmpty) = false := by
    rcases hroom with h | h
    · simp [h]
    · simp [show p.predecessors b = [] from h]
  unfold checkConnect
  rw [operator_eq_ok.mpr hopa, operator_eq_ok.mpr hopb, Pass.except_ok_bind, Pass.except_ok_bind]
  split
  · contradiction
  · contradiction
  · contradiction
  · simp [hcond]

theorem disconnect_spec {i j : Nat} {g : Graph Operator} (hwf : p.graph.WellFormed)
    (hp : p.Coherent) (hrun : p.graph.disconnect a b = .ok ((i, j), g)) :
    ∃ q, Plan.disconnect a b p = .ok (i, j) q ∧ Alike { p with graph := g } q ∧ q.Coherent := by
  refine ⟨_, ?_, Alike.invalidate (x := b), ?_⟩
  · unfold Plan.disconnect
    rw [Pass.bind_of_ok (onGraph_eq_ok.mpr ⟨g, step_eq_ok.mpr hrun, rfl⟩),
      Pass.bind_of_ok Pass.modify_apply]
    rfl
  · have hg := hwf.disconnect hrun
    have hcut := hwf.cut_of_disconnect hrun
    have hb := hwf.target (mem_of_idxOf? (disconnect_eq_ok.mp hrun).1)
    refine hp.rewired hwf hg hcut.nodes.content? fun z hz => ?_
    rw [hcut.predecessors, if_neg]
    rintro rfl
    exact hz (self_mem_descendants (hcut.nodes.contains.trans hb))

theorem connectAt_spec {i j : Nat} {g : Graph Operator} (hwf : p.graph.WellFormed)
    (hp : p.Coherent) (hcheck : p.checkConnect a b = .ok ())
    (hrun : p.graph.connectAt a i b j = .ok g) :
    ∃ q, Plan.connectAt a i b j p = .ok () q ∧ Alike { p with graph := g } q ∧ q.Coherent := by
  refine ⟨_, ?_, Alike.invalidate (x := b), ?_⟩
  · unfold Plan.connectAt
    rw [Pass.bind_of_ok Pass.get_apply, Pass.bind_of_ok (ofResult_eq_ok.mpr ⟨hcheck, rfl⟩),
      Pass.bind_of_ok (onGraph_eq_ok.mpr ⟨g, perform_eq_ok (u := ()).mpr hrun, rfl⟩)]
    rfl
  · have hg := hwf.connectAt hrun
    have hdrawn := drawn_of_connectAt hrun
    obtain ⟨⟨-, hb, -⟩, -⟩ := connectAt_eq_ok.mp hrun
    refine hp.rewired hwf hg hdrawn.nodes.content? fun z hz => ?_
    rw [hdrawn.predecessors, if_neg]
    rintro rfl
    exact hz (self_mem_descendants (hdrawn.nodes.contains.trans hb))

theorem connect_eq_connectAt : Plan.connect a b p =
    Plan.connectAt a (p.graph.successors a).length b (p.graph.predecessors b).length p := by
  unfold Plan.connect Plan.connectAt
  rw [Pass.bind_of_ok Pass.get_apply, Pass.bind_of_ok Pass.get_apply]
  cases hc : p.checkConnect a b with
  | ok u =>
    have hok : ofResult (.ok u) p = .ok u p := rfl
    rw [Pass.bind_of_ok hok, Pass.bind_of_ok hok]
    rfl
  | error e => rfl

/-! ## Moving edges -/

/-- The operators of two plans are the same, up to derived schemas; edges may differ. -/
structure SameOperators (p q : Plan) : Prop where
  ids : q.graph.ids = p.graph.ids
  nextKey : q.graph.nextKey = p.graph.nextKey
  core? : ∀ z, q.core? z = p.core? z

namespace SameOperators

theorem refl : SameOperators p p := ⟨rfl, rfl, fun _ => rfl⟩

theorem trans {r : Plan} (h : SameOperators p q) (h' : SameOperators q r) : SameOperators p r :=
  ⟨h'.ids.trans h.ids, h'.nextKey.trans h.nextKey, fun z => (h'.core? z).trans (h.core? z)⟩

theorem hasType (h : SameOperators p q) {t : OperatorType} : q.HasType z t ↔ p.HasType z t := by
  rw [hasType_iff_core?, hasType_iff_core?, h.core?]

end SameOperators

theorem Alike.sameOperators (h : Alike p q) : SameOperators p q :=
  ⟨h.ids, h.nextKey, fun _ => h.core?⟩

theorem sameOperators_of_sameNodes {g : Graph Operator} (h : SameNodes p.graph g) :
    SameOperators p { p with graph := g } :=
  ⟨h.ids, h.nextKey, fun z => congrArg (Option.map Operator.core) (h.content? z)⟩

/-- An operator that may be led another edge to in the place of one that it has. -/
def TakesRows (p : Plan) (s : NodeId) : Prop :=
  ∃ t, p.HasType s t ∧ t ≠ .load ∧
    (t.allowsMultipleInputs = true ∨ (p.graph.predecessors s).length ≤ 1)

/-- An edge may take the place of one that was cut. -/
theorem TakesRows.checkConnect {s : NodeId} (h : TakesRows p s) (hq : SameOperators p q)
    (hy : p.HasType y .filter) (hx : x ∈ p.graph.predecessors s)
    (hpre : q.graph.predecessors s = (p.graph.predecessors s).erase x) :
    q.checkConnect y s = .ok () := by
  obtain ⟨t, hst, hload, hroom⟩ := h
  refine checkConnect_eq_ok (hq.hasType.mpr hy) (hq.hasType.mpr hst) (by simp) hload ?_
  refine hroom.imp_right fun hone => ?_
  have hpos := List.length_pos_of_mem hx
  rw [hpre, ← List.length_eq_zero_iff, List.length_erase_of_mem hx]
  omega

/-- An edge that can be drawn in a plan can be drawn in one that is alike, to the same effect. -/
theorem Alike.exists_connectAt {i j : Nat} {g : Graph Operator} (h : Alike p q)
    (hq : q.graph.WellFormed) (hrun : p.graph.connectAt a i b j = .ok g) :
    ∃ g', q.graph.connectAt a i b j = .ok g' ∧ g'.WellFormed ∧ SameNodes q.graph g' ∧
      (∀ z, g'.predecessors z = g.predecessors z) ∧ ∀ z, g'.successors z = g.successors z := by
  have hdrawn := drawn_of_connectAt hrun
  obtain ⟨⟨ha, hb, hab, hnew, hi, hj⟩, -⟩ := connectAt_eq_ok.mp hrun
  obtain ⟨g', hrun', hg', hdrawn'⟩ := hq.exists_connectAt (i := i) (j := j)
    (h.contains.trans ha) (h.contains.trans hb) hab (by rwa [h.successors])
    (by rwa [h.successors]) (by rwa [h.predecessors])
  refine ⟨g', hrun', hg', hdrawn'.nodes, fun z => ?_, fun z => ?_⟩
  · rw [hdrawn'.predecessors, hdrawn.predecessors, h.predecessors, h.predecessors]
  · rw [hdrawn'.successors, hdrawn.successors, h.successors, h.successors]

/-- One output of `x` can be moved to a slot of a filter that does not lead to it. -/
theorem moveOutput_spec {s : NodeId} {slot : Nat} (hwf : p.graph.WellFormed) (hp : p.Coherent)
    (hyx : y ≠ x) (hy : p.HasType y .filter) (hs : s ∈ p.graph.successors x) (hsy : s ≠ y)
    (hnew : s ∉ p.graph.successors y) (htakes : TakesRows p s)
    (hslot : slot ≤ (p.graph.successors y).length) :
    ∃ i j q₁ q, Plan.disconnect x s p = .ok (i, j) q₁ ∧ Plan.connectAt y slot s j q₁ = .ok () q ∧
      q.graph.WellFormed ∧ q.Coherent ∧ SameOperators p q ∧
      (∀ z, q.graph.predecessors z =
        if z = s then (p.graph.predecessors s).map (renamed x y) else p.graph.predecessors z) ∧
      ∀ z, q.graph.successors z = if z = x then (p.graph.successors x).erase s
        else if z = y then (p.graph.successors y).insertIdx slot s
        else p.graph.successors z := by
  have hyc : p.graph.contains y = true := by
    obtain ⟨op, hop, -⟩ := hy
    exact contains_of_operator? hop
  obtain ⟨i, j, g₁, g₂, hd, hc, ⟨hg₁, hpre₁⟩, -, -, hpre₂, hsuc₂⟩ :=
    hwf.reroute hs hyc hyx (Ne.symm hsy) hnew hslot
  -- the edge is cut
  obtain ⟨q₁, hrun₁, halike₁, hq₁⟩ := disconnect_spec hwf hp hd
  have hwf₁ := halike₁.wellFormed hg₁
  have hsame₁ : SameOperators p q₁ :=
    (sameOperators_of_sameNodes (hwf.cut_of_disconnect hd).nodes).trans halike₁.sameOperators
  have hcheck : q₁.checkConnect y s = .ok () :=
    htakes.checkConnect hsame₁ hy ((hwf.edge x s).mp hs) ((halike₁.predecessors s).trans hpre₁)
  -- and drawn from `y`
  obtain ⟨g₃, hc₃, hg₃, hnodes₃, hpre₃, hsuc₃⟩ := halike₁.exists_connectAt hwf₁ hc
  obtain ⟨q₂, hrun₂, halike₂, hq₂⟩ := connectAt_spec hwf₁ hq₁ hcheck hc₃
  have hsame₂ := (sameOperators_of_sameNodes hnodes₃).trans halike₂.sameOperators
  exact ⟨i, j, q₁, q₂, hrun₁, hrun₂, halike₂.wellFormed hg₃, hq₂, hsame₁.trans hsame₂,
    fun z => (halike₂.predecessors z).trans ((hpre₃ z).trans (hpre₂ z)),
    fun z => (halike₂.successors z).trans ((hsuc₃ z).trans (hsuc₂ z))⟩

/-- All outputs of `x` can be moved to a filter that leads to none of them. -/
theorem moveOutputs_spec (hyx : y ≠ x) : ∀ (outs : List NodeId) {p : Plan} (slot : Nat),
    p.graph.WellFormed → p.Coherent → p.graph.successors x = outs → p.HasType y .filter →
    (∀ s ∈ outs, s ≠ y ∧ s ∉ p.graph.successors y ∧ TakesRows p s) →
    slot ≤ (p.graph.successors y).length →
    ∃ q, Rule.moveOutputs x y slot outs p = .ok () q ∧ q.graph.WellFormed ∧ q.Coherent ∧
      SameOperators p q ∧
      (∀ z, q.graph.predecessors z = (p.graph.predecessors z).map (renamed x y)) ∧
      ∀ z, q.graph.successors z = if z = x then []
        else if z = y then (p.graph.successors y).take slot ++ outs ++
          (p.graph.successors y).drop slot
        else p.graph.successors z
  | [], p, _, hwf, hp, hout, _, _, _ => by
    refine ⟨p, rfl, hwf, hp, .refl, fun z => (map_renamed_of_notMem fun hx => ?_).symm,
      fun z => ?_⟩
    · have := (hwf.edge x z).mpr hx
      simp [hout] at this
    · split_ifs with hzx hzy
      · rw [hzx, hout]
      · rw [hzy, List.append_nil, List.take_append_drop]
      · rfl
  | s :: rest, p, slot, hwf, hp, hout, hy, hnew, hslot => by
    obtain ⟨⟨hsy, hsnew, htakes⟩, hnew⟩ := List.forall_mem_cons.mp hnew
    obtain ⟨i, j, q₁, q₂, hrun₁, hrun₂, hwf₂, hq₂, hsame₂, hpre₂, hsuc₂⟩ :=
      moveOutput_spec hwf hp hyx hy (by simp [hout]) hsy hsnew htakes hslot
    have hsrest : s ∉ rest := (List.nodup_cons.mp (hout ▸ hwf.outs_nodup x)).1
    have hsucy : q₂.graph.successors y = (p.graph.successors y).insertIdx slot s := by
      rw [hsuc₂, if_neg hyx, if_pos rfl]
    have hnew₂ : ∀ u ∈ rest, u ≠ y ∧ u ∉ q₂.graph.successors y ∧ TakesRows q₂ u := fun u hu => by
      obtain ⟨huy, hunew, tu, hut, huload, huroom⟩ := hnew u hu
      refine ⟨huy, ?_, tu, hsame₂.hasType.mpr hut, huload, ?_⟩
      · rw [hsucy, List.mem_insertIdx hslot]
        rintro (rfl | hmem)
        · exact hsrest hu
        · exact hunew hmem
      · rwa [hpre₂, if_neg fun heq : u = s => hsrest (heq ▸ hu)]
    have hslot₂ : slot + 1 ≤ (q₂.graph.successors y).length := by
      rw [hsucy, List.length_insertIdx_of_le_length hslot]
      omega
    obtain ⟨q, hrun, hq, hqp, hsame, hpreq, hsucq⟩ := moveOutputs_spec hyx rest (slot + 1)
      hwf₂ hq₂ (by rw [hsuc₂, if_pos rfl, hout]; simp) (hsame₂.hasType.mpr hy) hnew₂ hslot₂
    refine ⟨q, ?_, hq, hqp, hsame₂.trans hsame, fun z => ?_, fun z => ?_⟩
    · unfold Rule.moveOutputs
      rw [Pass.bind_of_ok hrun₁]
      exact (Pass.bind_of_ok hrun₂).trans hrun
    · rw [hpreq, hpre₂]
      by_cases hz : z = s
      · simp only [hz, if_true, map_renamed_twice hyx]
      · simp [hz]
    · rw [hsucq, hsucy, append_insertIdx hslot, hsuc₂]
      split_ifs <;> rfl

/-- An edge to a filter without inputs. -/
theorem connect_filter_spec {t : OperatorType} (hwf : p.graph.WellFormed) (hp : p.Coherent)
    (ha : p.HasType a t) (ht : t ≠ .store) (hb : p.HasType b .filter) (hab : a ≠ b)
    (hpb : p.graph.predecessors b = []) :
    ∃ q, Plan.connect a b p = .ok () q ∧ q.graph.WellFormed ∧ q.Coherent ∧ SameOperators p q ∧
      (∀ z, q.graph.predecessors z = if z = b then [a] else p.graph.predecessors z) ∧
      ∀ z, q.graph.successors z = if z = a then p.graph.successors a ++ [b]
        else p.graph.successors z := by
  have hca : p.graph.contains a = true := by
    obtain ⟨op, hop, -⟩ := ha; exact contains_of_operator? hop
  have hcb : p.graph.contains b = true := by
    obtain ⟨op, hop, -⟩ := hb; exact contains_of_operator? hop
  have hnew : b ∉ p.graph.successors a := fun h => by
    have := (hwf.edge a b).mp h
    simp [hpb] at this
  obtain ⟨g, hrun, hg, hdrawn⟩ :=
    hwf.exists_connectAt hca hcb hab hnew (Nat.le_refl _) (Nat.le_refl _)
  obtain ⟨-, hsuc, hpre, -⟩ := connect_views (g := p.graph) hrun
  obtain ⟨q, hq, halike, hcoh⟩ := connectAt_spec hwf hp
    (checkConnect_eq_ok ha hb ht (by simp) (.inr hpb)) hrun
  refine ⟨q, connect_eq_connectAt.trans hq, halike.wellFormed hg, hcoh,
    (sameOperators_of_sameNodes hdrawn.nodes).trans halike.sameOperators, fun z => ?_,
    fun z => (halike.successors z).trans (hsuc z)⟩
  refine (halike.predecessors z).trans ((hpre z).trans ?_)
  rw [hpb]
  rfl

/-! ## Taking a filter out of its place -/

/-- What is taken out of its place is taken out of the graph whose schemas were forgotten. -/
theorem detaching_eq_ok {β : Type} {detach : Graph.Edit Operator β} {c : β}
    (hrun : detaching x detach p = .ok c q) : ∃ g, detach (p.invalidate x).graph = .ok c g ∧
      q = (p.graph.successors x).foldl Plan.invalidate { p with graph := g } := by
  unfold detaching at hrun
  rw [Pass.bind_of_ok Pass.get_apply, Pass.bind_of_ok Pass.modify_apply] at hrun
  obtain ⟨d, p₁, hgraph, hrun⟩ := Pass.bind_eq_ok.mp hrun
  obtain ⟨g, hg, rfl⟩ := onGraph_eq_ok.mp hgraph
  rw [Pass.bind_of_ok Pass.modify_apply] at hrun
  obtain ⟨rfl, rfl⟩ := EStateM.Result.ok.inj hrun
  exact ⟨g, hg, rfl⟩

theorem detaching_spec {β : Type} {detach : Graph.Edit Operator β} {c : β} {g : Graph Operator}
    (hwf : p.graph.WellFormed) (hp : p.Coherent) (hg : g.WellFormed)
    (hcx : p.graph.contains x = true)
    (hdetach : detach (p.invalidate x).graph = .ok c g)
    (hcontent : ∀ z, g.content? z = none ∧ z = x ∨
      g.content? z = (p.invalidate x).graph.content? z)
    (hpre : ∀ z, z ∉ p.graph.descendants x → g.predecessors z = p.graph.predecessors z) :
    ∃ q, detaching x detach p = .ok c q ∧ Alike { p with graph := g } q ∧ q.Coherent := by
  have hinv := Alike.invalidate (p := p) (x := x)
  have hcoh : Plan.Coherent { p with graph := g } := by
    refine hp.of_frame hwf (S := (· ∈ p.graph.descendants x))
      (fun u hu v hv => hwf.mem_descendants hu hv) (fun u hu => ?_) fun u hu => ?_
    · have hmemo : (p.invalidate x).memoOf u = none := by rw [memoOf_invalidate, if_pos hu]
      have hu' : operator? { p with graph := g } u = g.content? u := rfl
      rw [memoOf, hu']
      rcases hcontent u with ⟨hnone, -⟩ | heq
      · rw [hnone]; rfl
      · rw [heq]; exact hmemo
    · have hne : u ≠ x := by rintro rfl; exact hu (self_mem_descendants hcx)
      have hop : operator? { p with graph := g } u = p.operator? u := by
        rcases hcontent u with ⟨-, heq⟩ | heq
        · exact absurd heq hne
        · refine heq.trans ?_
          change (p.forgetAt _).operator? u = _
          rw [operator?_forgetAt, if_neg hu]
      exact ⟨hop, dataInputs_congr (hpre u hu) (by rw [hop])⟩
  refine ⟨_, ?_, Alike.foldl_invalidate (p.graph.successors x),
    Coherent.foldl_invalidate _ hcoh hg⟩
  unfold detaching
  rw [Pass.bind_of_ok Pass.get_apply, Pass.bind_of_ok Pass.modify_apply,
    Pass.bind_of_ok (onGraph_eq_ok.mpr ⟨g, hdetach, rfl⟩), Pass.bind_of_ok Pass.modify_apply]
  rfl

theorem spliceOut_spec (hwf : p.graph.WellFormed) (hp : p.Coherent)
    (hpx : p.graph.predecessors x = [y]) (hsy : p.graph.successors y = [x])
    (hback : y ∉ p.graph.successors x) :
    ∃ q, Plan.spliceOut x p = .ok () q ∧ q.graph.WellFormed ∧ q.Coherent ∧ SameOperators p q ∧
      (∀ z, q.graph.predecessors z =
        if z = x then [] else (p.graph.predecessors z).map (renamed x y)) ∧
      ∀ z, q.graph.successors z = if z = x then [] else if z = y then p.graph.successors x
        else p.graph.successors z := by
  have hinv := Alike.invalidate (p := p) (x := x)
  have hx : x ∈ p.graph.successors y := by simp [hsy]
  have hcx := hwf.target hx
  obtain ⟨g, hrun, hg, hsame, hpre, hsuc⟩ := (hinv.wellFormed hwf).spliceOut
    (x := x) (y := y) (by rw [hinv.predecessors, hpx]) (by rw [hinv.successors, hsy])
    (by rwa [hinv.successors])
  have hpre' : ∀ z, g.predecessors z =
      if z = x then [] else (p.graph.predecessors z).map (renamed x y) := fun z => by
    rw [hpre, hinv.predecessors]
  obtain ⟨q, hq, halike, hcoh⟩ := detaching_spec hwf hp hg hcx hrun
    (fun z => .inr (hsame.content? z)) fun z hz => by
      have hzx : z ≠ x := by rintro rfl; exact hz (self_mem_descendants hcx)
      rw [hpre', if_neg hzx]
      refine map_renamed_of_notMem fun hxz => hz ?_
      exact hwf.mem_descendants (self_mem_descendants hcx) ((hwf.edge x z).mpr hxz)
  have hoperators : SameOperators p { p with graph := g } :=
    ⟨hsame.ids.trans hinv.ids, hsame.nextKey.trans hinv.nextKey, fun z =>
      (congrArg (Option.map Operator.core) (hsame.content? z)).trans (hinv.core z)⟩
  refine ⟨q, hq, halike.wellFormed hg, hcoh, hoperators.trans halike.sameOperators,
    fun z => (halike.predecessors z).trans (hpre' z), fun z => (halike.successors z).trans ?_⟩
  show g.successors z = _
  rw [hsuc, hinv.successors, hinv.successors]

theorem bypass_spec (hwf : p.graph.WellFormed) (hp : p.Coherent)
    (hpx : p.graph.predecessors x = [y]) (hsy : p.graph.successors y = [x])
    (hback : y ∉ p.graph.successors x) (hop : p.operator? x = some op) :
    ∃ c q, Plan.bypass x p = .ok c q ∧ c.core = op.core ∧ q.graph.WellFormed ∧ q.Coherent ∧
      q.graph.ids = p.graph.ids.filter (· != x) ∧ q.graph.nextKey = p.graph.nextKey ∧
      (∀ z, q.core? z = if z = x then none else p.core? z) ∧
      (∀ z, q.graph.predecessors z =
        if z = x then [] else (p.graph.predecessors z).map (renamed x y)) ∧
      ∀ z, q.graph.successors z = if z = x then [] else if z = y then p.graph.successors x
        else p.graph.successors z := by
  have hinv := Alike.invalidate (p := p) (x := x)
  have hcx := contains_of_operator? hop
  obtain ⟨c, g, hrun, hc, hg, hids, hkey, hcont, hpre, hsuc⟩ := (hinv.wellFormed hwf).bypass
    (x := x) (y := y) (by rw [hinv.predecessors, hpx]) (by rw [hinv.successors, hsy])
    (by rwa [hinv.successors])
  have hpre' : ∀ z, g.predecessors z =
      if z = x then [] else (p.graph.predecessors z).map (renamed x y) := fun z => by
    rw [hpre, hinv.predecessors]
  obtain ⟨q, hq, halike, hcoh⟩ := detaching_spec hwf hp hg hcx hrun
    (fun z => by
      rw [hcont]
      by_cases hz : z = x
      · exact .inl ⟨by simp [hz], hz⟩
      · exact .inr (by simp [hz])) fun z hz => by
      have hzx : z ≠ x := by rintro rfl; exact hz (self_mem_descendants hcx)
      rw [hpre', if_neg hzx]
      refine map_renamed_of_notMem fun hxz => hz ?_
      exact hwf.mem_descendants (self_mem_descendants hcx) ((hwf.edge x z).mpr hxz)
  refine ⟨c, q, hq, ?_, halike.wellFormed hg, hcoh, ?_, ?_, fun z => ?_,
    fun z => (halike.predecessors z).trans (hpre' z), fun z => (halike.successors z).trans ?_⟩
  · have := hinv.core x
    rw [hop, show (p.invalidate x).operator? x = some c from hc] at this
    simpa using this
  · exact halike.ids.trans (hids.trans (by rw [hinv.ids]))
  · exact halike.nextKey.trans (hkey.trans hinv.nextKey)
  · refine halike.core?.trans ?_
    have hz : Plan.core? { p with graph := g } z = (g.content? z).map Operator.core := rfl
    rw [hz, hcont]
    by_cases hzx : z = x
    · simp [hzx]
    · rw [if_neg hzx, if_neg hzx]
      exact hinv.core z
  · show g.successors z = _
    rw [hsuc, hinv.successors, hinv.successors]

theorem insertBetween_spec (hwf : p.graph.WellFormed) (hp : p.Coherent)
    (hb : b ∈ p.graph.successors a) (hx : p.graph.contains x = true)
    (hpx : p.graph.predecessors x = []) (hsx : p.graph.successors x = []) (hxa : x ≠ a)
    (hxb : x ≠ b) :
    ∃ q, Plan.insertBetween a x b p = .ok () q ∧ q.graph.WellFormed ∧ q.Coherent ∧
      SameOperators p q ∧
      (∀ z, q.graph.predecessors z = if z = x then [a]
        else if z = b then (p.graph.predecessors b).map (renamed a x)
        else p.graph.predecessors z) ∧
      ∀ z, q.graph.successors z = if z = x then [b]
        else if z = a then (p.graph.successors a).map (renamed b x)
        else p.graph.successors z := by
  obtain ⟨g, hrun, hg, hsame, hpre, hsuc⟩ := hwf.insertBetween hb hx hpx hsx hxa hxb
  have hself : x ∈ g.descendants x := self_mem_descendants (by rw [hsame.contains]; exact hx)
  have hxb' : b ∈ g.successors x := by
    rw [hg.edge, hpre, if_neg (Ne.symm hxb), if_pos rfl]
    exact List.mem_map.mpr ⟨a, (hwf.edge a b).mp hb, renamed_self⟩
  refine ⟨Plan.invalidate { p with graph := g } x, ?_, Alike.invalidate.wellFormed hg,
    hp.rewired hwf hg hsame.content? fun z hz => ?_,
    (sameOperators_of_sameNodes hsame).trans Alike.invalidate.sameOperators,
    fun z => (Alike.invalidate.predecessors z).trans (hpre z),
    fun z => (Alike.invalidate.successors z).trans (hsuc z)⟩
  · unfold Plan.insertBetween
    rw [Pass.bind_of_ok (onGraph_eq_ok.mpr ⟨g, hrun, rfl⟩)]
    rfl
  · rw [hpre, if_neg, if_neg]
    · rintro rfl; exact hz (hg.mem_descendants hself hxb')
    · rintro rfl; exact hz hself

end Dataflow.Plan

import Dataflow.Proofs.Lists
import Dataflow.Proofs.Plan.Coherent
import Dataflow.Proofs.Plan.Growth
import Dataflow.Proofs.Plan.Issued

/-!
# Identities in plans that grow

Every identity that was handed out belongs to an operator of the plan, to one only, and stays there
(`Booked`). The reason is not in the plan itself: a union keeps its identities when its schema is
forgotten, and takes others if it is derived again with another number of columns. So the proof
keeps a ledger of what deriving each operator gave when it was derived first. As a plan only grows,
deriving an operator again gives what is in the ledger.
-/

namespace Dataflow

open Dataflow.Graph
open Operator (takeUids)

variable {o o' : Operation} {op op' : Operator} {s : Option Schema}

/-! ## Operations -/

namespace Operation

theorem isSource_congr (h : o'.withoutUids = o.withoutUids) : o'.IsSource ↔ o.IsSource := by
  cases o <;> cases o' <;> simp_all [withoutUids, IsSource]

theorem union_of_withUids {supply : UidSupply} {chosen : List Uid} (h : o.IsBlank)
    (hunion : (o.withUids supply).1 = .union chosen) : chosen = [] := by
  have htype := congrArg type hunion
  rw [type_withUids] at htype
  cases o with
  | union first =>
    obtain rfl : first = [] := h
    exact (Operation.union.inj hunion).symm
  | _ => simp [type] at htype

end Operation

theorem Operator.operation_of_forget (h : op'.forget = op.forget) :
    op'.operation = op.operation := by
  have hoperation := congrArg (fun op : Operator => op.operation) h
  exact hoperation

namespace Plan

variable {p q r : Plan} {a b id x : NodeId} {n : Nat} {chosen : List Uid}

/-! ## What operators own -/

/-- The identities of the columns that an operator declares or makes. -/
def uidsAt (p : Plan) (id : NodeId) : List Uid :=
  ((p.operator? id).map fun op => op.operation.ownUids).getD []

/-- The identities of the columns that the operators declare or make. -/
def ownUids (p : Plan) : List Uid := p.ids.flatMap p.uidsAt

theorem uidsAt_of_operator? (h : p.operator? id = some op) :
    p.uidsAt id = op.operation.ownUids := by
  simp [uidsAt, h]

/-! ## New edges -/

/-- New edges lead into `b`, and some derived schemas may be forgotten. -/
structure Redrawn (b : NodeId) (p q : Plan) : Prop where
  ids : q.graph.ids = p.graph.ids
  uids : q.uids = p.uids
  forget : ∀ z, (q.operator? z).map Operator.forget = (p.operator? z).map Operator.forget
  memo : ∀ z s, q.memoOf z = some s → p.memoOf z = some s
  predecessors : ∀ z, z ≠ b → q.graph.predecessors z = p.graph.predecessors z

namespace Redrawn

theorem refl : Redrawn b p p := ⟨rfl, rfl, fun _ => rfl, fun _ _ h => h, fun _ _ => rfl⟩

theorem trans (h : Redrawn b p q) (h' : Redrawn b q r) : Redrawn b p r where
  ids := h'.ids.trans h.ids
  uids := h'.uids.trans h.uids
  forget z := (h'.forget z).trans (h.forget z)
  memo z s hs := h.memo z s (h'.memo z s hs)
  predecessors z hz := (h'.predecessors z hz).trans (h.predecessors z hz)

theorem operator? (h : Redrawn b p q) (hop : q.operator? id = some op) :
    ∃ op', p.operator? id = some op' ∧ op'.forget = op.forget := by
  have hforget := h.forget id
  rw [hop] at hforget
  exact Option.map_eq_some_iff.mp hforget.symm

theorem nameOf (h : Redrawn b p q) : q.nameOf id = p.nameOf id := by
  have hforget := congrArg (Option.bind · Operator.name) (h.forget id)
  simp only [Option.bind_map] at hforget
  exact hforget

theorem contains (h : Redrawn b p q) : q.graph.contains id = p.graph.contains id := by
  rw [← content?_isSome, ← content?_isSome]
  have hforget := congrArg Option.isSome (h.forget id)
  rwa [Option.isSome_map, Option.isSome_map] at hforget

theorem uidsAt (h : Redrawn b p q) : q.uidsAt id = p.uidsAt id := by
  have hforget := congrArg (Option.map fun op : Operator => op.operation.ownUids) (h.forget id)
  rw [Option.map_map, Option.map_map] at hforget
  exact congrArg (Option.getD · []) hforget

theorem ownUids (h : Redrawn b p q) : q.ownUids = p.ownUids := by
  unfold Plan.ownUids Plan.ids
  rw [h.ids]
  exact List.flatMap_congr fun _ _ => h.uidsAt

/-- An edge into a load brings no rows. -/
theorem dataInputs (h : Redrawn b p q) (hb : id ≠ b ∨ p.HasType b .load) :
    q.dataInputs id = p.dataInputs id := by
  have htype := congrArg (Option.map Operator.type) (h.forget id)
  rw [Option.map_map, Option.map_map,
    show Operator.type ∘ Operator.forget = Operator.type from rfl] at htype
  rw [dataInputs_eq, dataInputs_eq]
  by_cases hid : id = b
  · obtain ⟨op, hop, hload⟩ := hb.resolve_left (not_not_intro hid)
    subst hid
    rw [hop, Option.map_some, hload] at htype
    obtain ⟨op', hop', hload'⟩ := Option.map_eq_some_iff.mp htype
    simp [hop, hop', hload, hload']
  · rw [h.predecessors id hid]
    cases hp : p.operator? id <;> cases hq : q.operator? id <;> simp_all

end Redrawn

theorem redrawn_graph {g : Graph Operator} (hids : g.ids = p.graph.ids)
    (hop : ∀ z, g.content? z = p.graph.content? z)
    (hpre : ∀ z, z ≠ b → g.predecessors z = p.graph.predecessors z) :
    Redrawn b p { p with graph := g } where
  ids := hids
  uids := rfl
  forget z := congrArg (Option.map Operator.forget) (hop z)
  memo z _ hs := (congrArg (Option.bind · Operator.memo) (hop z)).symm.trans hs
  predecessors := hpre

theorem redrawn_invalidate : Redrawn b p (p.invalidate x) where
  ids := Alike.invalidate.ids
  uids := rfl
  forget z := by
    refine (congrArg _ operator?_forgetAt).trans ?_
    split
    · rw [Option.map_map]
      rfl
    · rfl
  memo z s hs := by
    rw [memoOf_invalidate] at hs
    split at hs
    · simp at hs
    · exact hs
  predecessors z _ := Alike.invalidate.predecessors z

theorem redrawn_of_connect {u : Unit} (hrun : connect a b p = .ok u q) : Redrawn b p q := by
  have hlink := canLink_of_connect hrun
  rw [connect_eq_connectAt] at hrun
  unfold connectAt at hrun
  rw [Pass.bind_of_ok Pass.get_apply,
    Pass.bind_of_ok (ofResult_eq_ok.mpr ⟨hlink.check, rfl⟩)] at hrun
  obtain ⟨_, _, hgraph, hrun⟩ := Pass.bind_eq_ok.mp hrun
  obtain ⟨g, hg, rfl⟩ := onGraph_eq_ok.mp hgraph
  have hdrawn := drawn_of_connectAt (perform_eq_ok.mp hg)
  obtain rfl : Plan.invalidate _ b = q := by simpa using hrun
  exact .trans (redrawn_graph hdrawn.nodes.ids hdrawn.nodes.content? fun z hz =>
    (hdrawn.predecessors z).trans (if_neg hz)) redrawn_invalidate

theorem keeps_redrawn : Pass.Keeps (Redrawn b p) (connect a b) := fun q hq => by
  unfold Pass.after
  cases hrun : connect a b q with
  | ok u r => exact hq.trans (redrawn_of_connect hrun)
  | error e r => exact connect_eq_error hrun ▸ hq

/-! ## Ledgers -/

/-- What deriving each operator gave, as far as it was derived. -/
abbrev Labels := NodeId → Option (Option Schema)

/-- Deriving the operator from what the ledger has for its inputs gives the schema and takes no
identities. -/
def Yields (p : Plan) (m : Labels) (id : NodeId) (op : Operator) (s : Option Schema) : Prop :=
  (∀ x ∈ p.dataInputs id, (m x).isSome) ∧
    ∀ supply, op.deriveSchema ((p.dataInputs id).map fun x => (m x).join)
      ((p.dataInputs id).map p.nameOf) supply = .ok (s, op.operation, supply)

/-- Deriving an operator again gives what the ledger has, and a union without entry has no
identities yet. -/
structure Ledger (m : Labels) (p : Plan) : Prop where
  yields : ∀ id op s, p.operator? id = some op → m id = some s → p.Yields m id op s
  memo : ∀ id s, p.memoOf id = some s → m id = some s
  known : ∀ id, (m id).isSome → p.graph.contains id = true
  union : ∀ id op chosen, p.operator? id = some op → op.operation = .union chosen →
    m id = none → chosen = []

variable {m m' : Labels}

theorem Yields.congr (h : p.Yields m id op s) (hop : op'.forget = op.forget)
    (hins : q.dataInputs id = p.dataInputs id)
    (hname : ∀ x ∈ p.dataInputs id, q.nameOf x = p.nameOf x)
    (hm : ∀ x, (m x).isSome → m' x = m x) : q.Yields m' id op' s := by
  obtain ⟨hall, hderive⟩ := h
  have hm : ∀ x ∈ p.dataInputs id, m' x = m x := fun x hx => hm x (hall x hx)
  unfold Yields
  rw [hins]
  refine ⟨fun x hx => (hm x hx).symm ▸ hall x hx, fun supply => ?_⟩
  rw [List.map_congr_left fun x hx => congrArg Option.join (hm x hx), List.map_congr_left hname,
    deriveSchema_congr hop, hderive supply, Operator.operation_of_forget hop]

namespace Ledger

theorem redrawn (h : Ledger m p) (hq : Redrawn b p q) (hb : m b = none ∨ p.HasType b .load) :
    Ledger m q where
  yields id op s hop hs := by
    obtain ⟨op', hop', hforget⟩ := hq.operator? hop
    refine (h.yields id op' s hop' hs).congr hforget.symm (hq.dataInputs ?_) (fun _ _ => hq.nameOf)
      fun _ _ => rfl
    refine hb.imp_left fun hnone => ?_
    rintro rfl
    simp [hnone] at hs
  memo id s hs := h.memo id s (hq.memo id s hs)
  known id hid := hq.contains.trans (h.known id hid)
  union id op chosen hop hunion hid := by
    obtain ⟨op', hop', hforget⟩ := hq.operator? hop
    exact h.union id op' chosen hop' ((Operator.operation_of_forget hforget).trans hunion) hid

theorem add (h : Ledger m p) (hp : p.Sown n) (hblank : op.operation.IsBlank) :
    Ledger m (p.add op).2 := by
  have hop : ∀ z, (p.add op).2.operator? z =
      if z = p.next then some (p.numbered op) else p.operator? z := fun z => content?_add
  have hne : ∀ z, (m z).isSome → z ≠ p.next := by
    rintro z hz rfl
    simpa [hp.fresh] using h.known _ hz
  have hold : ∀ z, (m z).isSome → (p.add op).2.operator? z = p.operator? z := fun z hz =>
    (hop z).trans (if_neg (hne z hz))
  refine ⟨fun id op' s hop' hs => ?_, fun id s hs => ?_, fun id hid => ?_,
    fun id op' chosen hop' hunion hid => ?_⟩
  · have hid := hold id (by simp [hs])
    have hyields := h.yields id op' s (hid ▸ hop') hs
    refine hyields.congr rfl ?_ (fun x hx => ?_) fun _ _ => rfl
    · exact dataInputs_congr predecessors_add (congrArg _ hid)
    · rw [nameOf, nameOf, hold x (hyields.1 x hx)]
  · rw [memoOf, hop] at hs
    split at hs
    · simp [numbered] at hs
    · exact h.memo id s hs
  · obtain ⟨op', hop'⟩ := exists_operator? (h.known id hid)
    exact contains_of_operator? ((hold id hid).trans hop')
  · rw [hop] at hop'
    split at hop'
    · obtain rfl := Option.some.inj hop'
      exact Operation.union_of_withUids hblank hunion
    · exact h.union id op' chosen hop' hunion hid

/-- An operator is entered in the ledger with the schema that was derived for it. -/
theorem withSchema {supply : UidSupply} (h : Ledger m p) (hop : p.operator? id = some op)
    (halike : Alike p (p.withSchema id s o supply))
    (hnew : p.Yields m id { op with operation := o, memo := some s } s)
    (hold : ∀ t, m id = some t → t = s) :
    Ledger (Function.update m id (some s)) (p.withSchema id s o supply) := by
  have hkeep : ∀ x, (m x).isSome → Function.update m id (some s) x = m x := fun x hx => by
    by_cases hxid : x = id
    · subst hxid
      obtain ⟨t, ht⟩ := Option.isSome_iff_exists.mp hx
      rw [Function.update_self, ht, hold t ht]
    · exact Function.update_of_ne hxid _ _
  have hother : ∀ z, z ≠ id → (p.withSchema id s o supply).operator? z = p.operator? z :=
    fun z hz => operator?_withSchema.trans (if_neg hz)
  refine ⟨fun z op' t hop' ht => ?_, fun z t ht => ?_, fun z hz => ?_,
    fun z op' chosen hop' hunion hz => ?_⟩
  · by_cases hzid : z = id
    · subst hzid
      obtain rfl : s = t := by simpa using ht
      rw [operator?_withSchema, if_pos rfl, hop] at hop'
      exact hnew.congr (congrArg Operator.forget (Option.some.inj hop').symm) halike.dataInputs
        (fun _ _ => halike.nameOf) hkeep
    · rw [Function.update_of_ne hzid] at ht
      exact (h.yields z op' t (hother z hzid ▸ hop') ht).congr rfl halike.dataInputs
        (fun _ _ => halike.nameOf) hkeep
  · rw [memoOf_withSchema hop] at ht
    by_cases hzid : z = id
    · subst hzid
      simpa using ht
    · rw [if_neg hzid] at ht
      rw [Function.update_of_ne hzid]
      exact h.memo z t ht
  · rw [halike.contains]
    by_cases hzid : z = id
    · exact hzid ▸ contains_of_operator? hop
    · rw [Function.update_of_ne hzid] at hz
      exact h.known z hz
  · have hzid : z ≠ id := by
      rintro rfl
      simp at hz
    rw [Function.update_of_ne hzid] at hz
    exact h.union z op' chosen (hother z hzid ▸ hop') hunion hz

/-- Deriving an operator keeps what is in the ledger. What identities it takes go to the
operator. -/
theorem deriveOne {u : Unit} (h : Ledger m p) (hrun : deriveOne id p = .ok u q) :
    (∃ m', Ledger m' q) ∧ ∃ k, q.uids = (takeUids k p.uids).2 ∧
      q.uidsAt id = p.uidsAt id ++ (takeUids k p.uids).1 ∧
      ∀ z, z ≠ id → q.uidsAt z = p.uidsAt z := by
  have halike := Alike.deriveOne hrun
  obtain ⟨op, s, o, supply, hop, hins, hderive, rfl⟩ := deriveOne_eq_ok.mp hrun
  have hlabels : ∀ x ∈ p.dataInputs id, m x = p.memoOf x := fun x hx => by
    obtain ⟨t, ht⟩ := Option.isSome_iff_exists.mp (hins x hx)
    rw [ht, h.memo x t ht]
  rw [List.map_congr_left fun x hx => (congrArg Option.join (hlabels x hx)).symm] at hderive
  have hentry : ∀ t, m id = some t → t = s ∧ op.operation = o ∧ p.uids = supply := fun t ht => by
    simpa using ((h.yields id op t hop ht).2 p.uids).symm.trans hderive
  refine ⟨⟨_, h.withSchema hop halike ⟨fun x hx => hlabels x hx ▸ hins x hx,
    (deriveSchema_again (some s) hderive).2⟩ fun t ht => (hentry t ht).1⟩, ?_⟩
  have hown : (p.withSchema id s o supply).uidsAt id = o.ownUids := by
    rw [uidsAt, operator?_withSchema, if_pos rfl, hop]
    rfl
  have hothers : ∀ z, z ≠ id → (p.withSchema id s o supply).uidsAt z = p.uidsAt z := fun z hz => by
    rw [uidsAt, operator?_withSchema, if_neg hz, ← uidsAt]
  rw [hown, uidsAt_of_operator? hop]
  cases hm : m id with
  | some t =>
    obtain ⟨-, rfl, hsupply⟩ := hentry t hm
    exact ⟨0, hsupply.symm, (List.append_nil _).symm, hothers⟩
  | none =>
    obtain ⟨k, hk⟩ := Operator.deriveSchema_ownUids hderive fun chosen hunion =>
      h.union id op chosen hop hunion hm
    obtain ⟨hown, hsupply⟩ := Prod.mk.inj hk
    exact ⟨k, hsupply, hown, hothers⟩

end Ledger

/-! ## Booked plans -/

/-- All identities that were handed out, starting with the first one, are with the operators of the
plan, each of them once, and there is a ledger. What loads declare is computed from nothing. -/
structure Booked (p : Plan) : Prop where
  issued : ∃ n, p.uids = (takeUids n {}).2 ∧ p.ownUids.Perm (takeUids n {}).1
  source : ∀ id op, p.operator? id = some op → op.operation.IsSource
  ledger : ∃ m, Ledger m p

namespace Booked

theorem empty : Booked {} where
  issued := ⟨0, rfl, .refl _⟩
  source id op hop := by simp [Plan.operator?, content?] at hop
  ledger := ⟨fun _ => none, by simp,
    fun id s hs => by simp [memoOf, Plan.operator?, content?] at hs, by simp,
    fun id op chosen hop => by simp [Plan.operator?, content?] at hop⟩

/-- More identities were handed out, and the plan has them. -/
theorem issued_more {k : Nat} (h : p.Booked) (huids : q.uids = (takeUids k p.uids).2)
    (hown : q.ownUids.Perm (p.ownUids ++ (takeUids k p.uids).1)) :
    ∃ n, q.uids = (takeUids n {}).2 ∧ q.ownUids.Perm (takeUids n {}).1 := by
  obtain ⟨n, hp, hperm⟩ := h.issued
  refine ⟨n + k, ?_, ?_⟩
  · rw [UidSupply.takeUids_add, huids, hp]
  · rw [UidSupply.takeUids_add, ← hp]
    exact hown.trans (hperm.append_right _)

theorem redrawn (h : p.Booked) (hq : Redrawn b p q)
    (hb : ∃ m, Ledger m p ∧ (m b = none ∨ p.HasType b .load)) : q.Booked where
  issued := by
    rw [hq.uids, hq.ownUids]
    exact h.issued
  source id op hop := by
    obtain ⟨op', hop', hforget⟩ := hq.operator? hop
    exact Operator.operation_of_forget hforget ▸ h.source id op' hop'
  ledger := by
    obtain ⟨m, hm, hb⟩ := hb
    exact ⟨m, hm.redrawn hq hb⟩

theorem deriveOne {u : Unit} (h : p.Booked) (hwf : p.graph.WellFormed)
    (hrun : deriveOne id p = .ok u q) : q.Booked := by
  obtain ⟨m, hm⟩ := h.ledger
  obtain ⟨hledger, k, huids, hown, hothers⟩ := hm.deriveOne hrun
  have halike := Alike.deriveOne hrun
  obtain ⟨op, s, o, supply, hop, -, hderive, rfl⟩ := deriveOne_eq_ok.mp hrun
  refine ⟨h.issued_more huids ?_, fun z op' hop' => ?_, hledger⟩
  · unfold Plan.ownUids Plan.ids
    rw [halike.ids]
    exact Lists.flatMap_perm_append hwf.ids_nodup
      ((hwf.mem_ids id).mpr (contains_of_operator? hop)) hothers
      hown
  · rw [operator?_withSchema] at hop'
    split at hop'
    · next hz =>
      obtain ⟨op₀, hop₀, rfl⟩ := Option.map_eq_some_iff.mp hop'
      obtain rfl : op = op₀ := Option.some.inj (hop.symm.trans (hz ▸ hop₀))
      exact (Operation.isSource_congr (deriveSchema_again none hderive).1).mpr (h.source id op hop)
    · exact h.source z op' hop'

/-- A new operator gets all its identities. -/
theorem add (h : p.Booked) (hp : p.Sown n) (hblank : op.operation.IsBlank) :
    (p.add op).2.Booked := by
  have hop : ∀ z, (p.add op).2.operator? z =
      if z = p.next then some (p.numbered op) else p.operator? z := fun z => content?_add
  obtain ⟨k, hk⟩ := Operation.withUids_spec hblank p.uids
  obtain ⟨hnew, hsupply⟩ := Prod.mk.inj hk
  refine ⟨h.issued_more (k := k) hsupply ?_, fun z op' hop' => ?_, ?_⟩
  · have hids : (p.add op).2.ids = p.ids ++ [p.next] := rfl
    have hold : ∀ z ∈ p.ids, (p.add op).2.uidsAt z = p.uidsAt z := fun z hz => by
      have hne : z ≠ p.next := by
        rintro rfl
        simpa [hp.fresh] using (hp.wellFormed.mem_ids _).mp hz
      rw [uidsAt, hop, if_neg hne, ← uidsAt]
    have hlast : (p.add op).2.uidsAt p.next = (takeUids k p.uids).1 :=
      (uidsAt_of_operator? ((hop _).trans (if_pos rfl))).trans hnew
    rw [Plan.ownUids, Plan.ownUids, hids, List.flatMap_append, List.flatMap_congr hold,
      List.flatMap_singleton, hlast]
  · rw [hop] at hop'
    split at hop'
    · obtain rfl := Option.some.inj hop'
      exact Operation.isSource_withUids hblank p.uids
    · exact h.source z op' hop'
  · obtain ⟨m, hm⟩ := h.ledger
    exact ⟨m, hm.add hp hblank⟩

end Booked

theorem redrawn_connectAll (id : NodeId) (inputs : List NodeId) (p : Plan) :
    Redrawn id p (Pass.after (inputs.forM (connect · id)) p) :=
  Pass.Keeps.forM (fun _ => keeps_redrawn) inputs p .refl

/-- Adding an operator with inputs keeps all identities with their operators, whether or not the
inputs can be connected. -/
theorem Booked.append (h : p.Booked) (hp : p.Sown n) (hblank : op.operation.IsBlank)
    (inputs : List NodeId) : (Pass.after (append op inputs) p).Booked := by
  rw [append_after]
  obtain ⟨m, hm⟩ := h.ledger
  refine (h.add hp hblank).redrawn (redrawn_connectAll _ _ _) ⟨m, hm.add hp hblank, .inl ?_⟩
  by_contra hsome
  simpa [hp.fresh] using hm.known _ (Option.isSome_iff_ne_none.mpr hsome)

/-- A load may come to wait for a store. -/
theorem Booked.connect {u : Unit} (h : p.Booked) (hb : p.HasType b .load)
    (hrun : connect a b p = .ok u q) : q.Booked := by
  obtain ⟨m, hm⟩ := h.ledger
  exact h.redrawn (redrawn_of_connect hrun) ⟨m, hm, .inr hb⟩

end Plan

end Dataflow

import Dataflow.Proofs.Graph.Calls
import Dataflow.Proofs.Plan.Edit

/-!
# Edits that take no identities

Unions remember the identities of their columns, which they take when their schema is derived. Edits
of edges and of filters take none, and whatever is no filter does what it did before (`Refiltered`).
So unions keep the identities that they have (`SameIdentities`), and all but the filters is the same
after such edits as before, derived schemas apart (`SameIdentities.forget_eq`).
-/

namespace Dataflow

open Dataflow.Graph

/-- The same operation, if the parameters are the same apart from chosen identities, and those are
the same, too. -/
theorem Operation.eq_of_withoutUids {o o' : Operation} (h : o'.withoutUids = o.withoutUids)
    (hunion : ∀ us, o' = .union us → o = .union us) : o' = o := by
  cases o' with
  | union us => exact (hunion us rfl).symm
  | _ => cases o <;> simp_all [Operation.withoutUids]

namespace Plan

variable {p q r : Plan} {a b x z id : NodeId} {op : Operator} {f : Formula}

/-- No identities were taken, and every union has those that it had before. -/
structure SameIdentities (p q : Plan) : Prop where
  uids : q.uids = p.uids
  unions : ∀ z op us, q.operator? z = some op → op.operation = .union us →
    ∃ op', p.operator? z = some op' ∧ op'.operation = .union us

namespace SameIdentities

/-- Where parameters are the same, too, the operator is, apart from its derived schema. -/
theorem forget_eq {op' : Operator} (h : SameIdentities p q) (hop : p.operator? z = some op)
    (hop' : q.operator? z = some op') (hcore : op'.core = op.core) : op'.forget = op.forget := by
  have hname : op'.name = op.name := congrArg (fun op => op.name) hcore
  have hoperation : op'.operation = op.operation := by
    refine Operation.eq_of_withoutUids (congrArg (fun op => op.operation) hcore) fun us hus => ?_
    obtain ⟨op₁, hop₁, ho₁⟩ := h.unions z op' us hop' hus
    obtain rfl : op = op₁ := Option.some.inj (hop.symm.trans hop₁)
    exact ho₁
  unfold Operator.forget
  rw [hname, hoperation]

end SameIdentities

/-- Whatever is no filter afterwards does what it did before, and no identities were taken. -/
structure Refiltered (p q : Plan) : Prop where
  uids : q.uids = p.uids
  operations : ∀ z op, q.operator? z = some op → op.type ≠ .filter →
    ∃ op', p.operator? z = some op' ∧ op'.operation = op.operation

namespace Refiltered

theorem refl : Refiltered p p := ⟨rfl, fun _ op hop _ => ⟨op, hop, rfl⟩⟩

theorem trans (h : Refiltered p q) (h' : Refiltered q r) : Refiltered p r where
  uids := h'.uids.trans h.uids
  operations z op hop ht := by
    obtain ⟨op', hop', ho'⟩ := h'.operations z op hop ht
    have ht' : op'.type ≠ .filter := by
      unfold Operator.type
      rwa [ho']
    obtain ⟨op₁, hop₁, ho₁⟩ := h.operations z op' hop' ht'
    exact ⟨op₁, hop₁, ho₁.trans ho'⟩

theorem sameIdentities (h : Refiltered p q) : SameIdentities p q where
  uids := h.uids
  unions z op us hop ho := by
    have ht : op.type ≠ .filter := by
      unfold Operator.type
      rw [ho]
      exact nofun
    obtain ⟨op', hop', ho'⟩ := h.operations z op hop ht
    exact ⟨op', hop', ho'.trans ho⟩

theorem forgetAt {ids : List NodeId} : Refiltered p (p.forgetAt ids) where
  uids := rfl
  operations z op hop _ := by
    rw [operator?_forgetAt] at hop
    split at hop
    · obtain ⟨op', hop', rfl⟩ := Option.map_eq_some_iff.mp hop
      exact ⟨op', hop', rfl⟩
    · exact ⟨op, hop, rfl⟩

theorem keeps_invalidate : Pass.Keeps (Refiltered p) (modify (·.invalidate id) : Edit Unit) :=
  .modify fun _ h => h.trans forgetAt

/-! ## Edits of edges -/

/-- Dropping the record of an edge, whichever one, leaves contents alone. -/
theorem content?_cut {g : Graph Operator} {i j : Nat} :
    (g.unlink a i b j).content? z = g.content? z := by
  unfold content? unlink
  rw [getElem?_modify, getElem?_modify]
  split <;> split <;> cases g.vertices[z]? <;> simp_all

/-- What is no filter in a graph does what it does in the plan. -/
def Others (p : Plan) (g : Graph Operator) : Prop :=
  ∀ z op, g.content? z = some op → op.type ≠ .filter →
    ∃ op', p.operator? z = some op' ∧ op'.operation = op.operation

theorem Others.of_contents {g g' : Graph Operator} (h : Others p g)
    (hsub : ∀ z op, g'.content? z = some op → g.content? z = some op) : Others p g' :=
  fun z op hop ht => h z op (hsub z op hop) ht

theorem steady : Steady (Others p) where
  connectAt := keeps_perform fun g g' h hrun => h.of_contents fun z op hop => by
    rwa [(drawn_of_connectAt hrun).nodes.content?] at hop
  disconnect := keeps_step fun g c g' h hrun => h.of_contents fun z op hop => by
    obtain ⟨-, -, rfl⟩ := disconnect_eq_ok.mp hrun
    rwa [content?_cut] at hop

theorem keeps_onGraph {β : Type} {edit : Graph.Edit Operator β} (h : Pass.Keeps (Others p) edit) :
    Pass.Keeps (Refiltered p) (onGraph edit) := fun q hq => by
  have hg := h q.graph hq.operations
  unfold Pass.after onGraph at *
  cases hrun : edit q.graph with
  | ok c g =>
    rw [hrun] at hg
    exact ⟨hq.uids, hg⟩
  | error e g =>
    rw [hrun] at hg
    exact ⟨hq.uids, hg⟩

theorem keeps_connectAt {i j : Nat} : Pass.Keeps (Refiltered p) (connectAt a i b j) := by
  unfold connectAt
  refine .bind .get fun q => .bind keeps_ofResult fun _ => .bind ?_ fun _ => keeps_invalidate
  exact keeps_onGraph (steady.connectAt (i := fun _ => i) (j := fun _ => j))

theorem keeps_connect : Pass.Keeps (Refiltered p) (connect a b) := by
  unfold connect
  refine .bind .get fun q => .bind keeps_ofResult fun _ => .bind ?_ fun _ => keeps_invalidate
  exact keeps_onGraph steady.connectAt

theorem keeps_disconnect : Pass.Keeps (Refiltered p) (disconnect a b) :=
  .bind (keeps_onGraph steady.disconnect) fun _ => .bind keeps_invalidate fun _ => .pure

theorem keeps_insertBetween : Pass.Keeps (Refiltered p) (insertBetween a x b) :=
  .bind (keeps_onGraph steady.insertBetween) fun _ => keeps_invalidate

theorem foldl_invalidate : ∀ {ids : List NodeId} {q : Plan}, Refiltered p q →
    Refiltered p (ids.foldl Plan.invalidate q) := by
  intro ids
  induction ids with
  | nil => exact fun h => h
  | cons id ids ih => exact fun h => ih (h.trans forgetAt)

theorem keeps_detaching {β : Type} {detach : Graph.Edit Operator β}
    (h : Pass.Keeps (Others p) detach) : Pass.Keeps (Refiltered p) (detaching x detach) := by
  unfold detaching
  refine .bind .get fun q => .bind keeps_invalidate fun _ => .bind (keeps_onGraph h) fun _ => ?_
  exact .bind (.modify fun _ hq => foldl_invalidate hq) fun _ => .pure

theorem keeps_spliceOut : Pass.Keeps (Refiltered p) (spliceOut x) :=
  keeps_detaching steady.spliceOut

theorem keeps_bypass : Pass.Keeps (Refiltered p) (bypass x) := by
  refine keeps_detaching (.bind steady.spliceOut fun _ => keeps_step fun g c g' h hrun => ?_)
  refine h.of_contents fun z op hop => ?_
  obtain ⟨-, -, -, rfl⟩ := remove_eq_ok.mp hrun
  have hop := (content?_erased g x).symm.trans hop
  split at hop
  · cases hop
  · exact hop

/-! ## Edits of operators -/

/-- A change that leaves alone what an operator does, or makes it a filter. -/
theorem keeps_update {change : Operator → Operator}
    (h : ∀ op, (change op).type ≠ .filter → (change op).operation = op.operation) :
    Pass.Keeps (Refiltered p) (update id change) := by
  intro q hq
  unfold Pass.after Plan.update
  rw [Pass.bind_of_ok Pass.get_apply]
  by_cases hid : q.contains id = true
  · rw [if_pos hid]
    refine ⟨hq.uids, fun z op hop ht => ?_⟩
    have hop := content?_update.symm.trans hop
    have hinv : Refiltered p (q.invalidate id) := hq.trans forgetAt
    split at hop
    · obtain ⟨op', hop', rfl⟩ := Option.map_eq_some_iff.mp hop
      have ht' : op'.type ≠ .filter := by
        unfold Operator.type
        rwa [← h op' ht]
      rw [h op' ht]
      exact hinv.operations z op' hop' ht'
    · exact hinv.operations z op hop ht
  · rw [if_neg hid]
    exact hq

theorem keeps_setPredicate : Pass.Keeps (Refiltered p) (Rule.setPredicate id f) := by
  unfold Rule.setPredicate
  refine .bind (keeps_update fun _ _ => rfl) fun _ => .bind .get fun q =>
    .bind keeps_ofResult fun op => ?_
  cases op.operation with
  | filter g => exact keeps_update fun _ ht => absurd rfl ht
  | _ => exact .throw

/-- A filter is added. -/
theorem keeps_insert : Pass.Keeps (Refiltered p) (insert { operation := .filter f }) := by
  intro q hq
  refine ⟨hq.uids, fun z op hop ht => ?_⟩
  have hop := content?_add.symm.trans hop
  split at hop
  · obtain rfl := Option.some.inj hop
    exact absurd rfl ht
  · exact hq.operations z op hop ht

/-! ## Rules for filters -/

theorem keeps_moveOutputs {y : NodeId} : ∀ (outputs : List NodeId) (slot : Nat),
    Pass.Keeps (Refiltered p) (Rule.moveOutputs x y slot outputs) := by
  intro outputs
  induction outputs with
  | nil => exact fun _ => .pure
  | cons s rest ih =>
    intro slot
    unfold Rule.moveOutputs
    exact .bind keeps_disconnect fun _ => .bind keeps_connectAt fun _ => ih _

theorem keeps_splitFilter {m : Match} :
    Pass.Keeps (Refiltered p) (Rule.splitFilter.transform m) := by
  unfold Rule.splitFilter
  refine .bind keeps_ofResult fun upper => .bind .get fun q => .bind keeps_ofResult fun f =>
    .bind keeps_ofResult fun parts => ?_
  cases parts with
  | none => exact .throw
  | some parts =>
    refine .bind keeps_setPredicate fun _ => .bind keeps_insert fun lower => .bind .get fun r => ?_
    exact .bind (keeps_moveOutputs _ _) fun _ => .bind keeps_connect fun _ => .pure

theorem keeps_mergeFilter {m : Match} :
    Pass.Keeps (Refiltered p) (Rule.mergeFilter.transform m) := by
  unfold Rule.mergeFilter
  refine .bind keeps_ofResult fun upper => .bind keeps_ofResult fun lower => .bind .get fun q =>
    .bind keeps_ofResult fun f => .bind .get fun q' => .bind keeps_ofResult fun g =>
    .bind keeps_ofResult fun both => .bind .get fun r => .bind keeps_bypass fun removed =>
    .bind keeps_setPredicate fun _ => ?_
  split
  · exact .bind (keeps_update fun _ _ => rfl) fun _ => .pure
  · exact .pure

/-- The edits by which a filter moves, once it is known where to. -/
theorem keeps_move {input F : NodeId} : Pass.Keeps (Refiltered p) (do
    spliceOut x
    Rule.setPredicate x f
    insertBetween input x F) :=
  .bind keeps_spliceOut fun _ => .bind keeps_setPredicate fun _ => keeps_insertBetween

end Refiltered

end Plan

end Dataflow

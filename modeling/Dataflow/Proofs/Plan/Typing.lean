import Dataflow.Proofs.Graph.Typing
import Dataflow.Proofs.Plan.Coherent
import Dataflow.Proofs.Plan.History

/-!
# Plans whose edges are typed

Connecting two operators asks whether an edge may lead from one to the other, but the composed edits
put edges in place without asking. As long as those are edges that could have been drawn by
connecting (`Change.Fits`), which holds whenever an operator is taken out that is neither a load nor
a store (`Graph.Typed.passable`), every history of edits keeps the edges typed, whether or not each
of them succeeds (`wired_of_changes`).
-/

namespace Dataflow

theorem Pass.after_bind_of {ε σ α β : Type} {I : σ → Prop} {s : σ} {x : EStateM ε σ α}
    {f : α → EStateM ε σ β} (hx : I (after x s)) (hf : ∀ a, Keeps I (f a)) :
    I (after (x >>= f) s) := by
  rw [after_bind]
  unfold after at hx
  cases hxs : x s with
  | ok a t => exact hf a t (by simpa only [hxs] using hx)
  | error e t => simpa only [hxs] using hx

open Dataflow.Graph

variable {p q : Plan} {a b id x : NodeId} {n : Nat}

namespace Plan

/-! ## Edits of plans -/

/-- What every edit keeps: the graph is well-formed, so many keys were handed out, and edges are
typed. -/
structure Arranged (n : Nat) (p : Plan) : Prop where
  kept : Kept n p.graph
  typed : p.graph.Typed

theorem Alike.typeAt (h : Alike p q) : q.graph.typeAt id = p.graph.typeAt id := by
  have hcore := congrArg (Option.map Operator.type) (h.core id)
  rw [Option.map_map, Option.map_map, show Operator.type ∘ Operator.core = Operator.type from
    funext Operator.type_core] at hcore
  exact hcore

theorem Alike.typed (h : Alike p q) (hp : p.graph.Typed) : q.graph.Typed :=
  hp.mono (fun _ _ ht => h.typeAt ▸ ht) (fun _ _ hb => h.successors _ ▸ hb) fun b => by
    rw [h.predecessors b]

theorem Arranged.alike (h : p.Arranged n) (hq : Alike p q) : q.Arranged n where
  kept := ⟨hq.wellFormed h.kept.wellFormed, hq.keysBelow h.kept.keysBelow,
    (congrArg UInt64.toNat hq.nextKey).trans h.kept.nextKey⟩
  typed := hq.typed h.typed

/-- What can be connected may feed each other, and there is room. -/
theorem mayFeed_of_checkConnect (h : p.checkConnect a b = .ok ()) :
    p.graph.MayFeed a b ∧ p.graph.TakesInput b := by
  unfold checkConnect at h
  obtain ⟨source, ha, h⟩ := Pass.except_bind_eq_ok.mp h
  obtain ⟨target, hb, h⟩ := Pass.except_bind_eq_ok.mp h
  have hs : p.graph.typeAt a = some source.type :=
    Option.map_eq_some_iff.mpr ⟨source, operator_eq_ok.mp ha, rfl⟩
  have ht : p.graph.typeAt b = some target.type :=
    Option.map_eq_some_iff.mpr ⟨target, operator_eq_ok.mp hb, rfl⟩
  unfold MayFeed TakesInput
  simp only [hs, ht, Option.mem_def, Option.some.injEq, forall_eq']
  split at h
  · next hs ht => simp [hs, ht]
  · simp at h
  · simp at h
  · next hsource htarget _ =>
    refine ⟨iff_of_false hsource htarget, .inr ?_⟩
    cases hmany : target.type.allowsMultipleInputs with
    | true => exact .inl rfl
    | false =>
      rw [hmany] at h
      split at h
      · simp at h
      · next hempty =>
        refine .inr (List.isEmpty_iff.mp ?_)
        show (p.predecessors b).isEmpty = true
        simpa only [Bool.not_false, Bool.true_and, Bool.not_eq_true', Bool.not_eq_false]
          using hempty

/-! ### Passes -/

theorem after_onGraph {β : Type} {edit : Graph.Edit Operator β} :
    Pass.after (onGraph edit) p = { p with graph := Pass.after edit p.graph } := by
  unfold Pass.after onGraph
  cases edit p.graph <;> rfl

/-- An edit of the graph, and what forgets schemas behind it. -/
theorem Arranged.onGraph {β γ : Type} {edit : Graph.Edit Operator β} {f : β → Edit γ}
    (hk : Kept n (Pass.after edit p.graph)) (ht : (Pass.after edit p.graph).Typed)
    (hf : ∀ b, Pass.Keeps (Arranged n) (f b)) :
    Arranged n (Pass.after (Plan.onGraph edit >>= f) p) := by
  refine Pass.after_bind_of ?_ hf
  rw [after_onGraph]
  exact ⟨hk, ht⟩

namespace Arranged

theorem empty (uids : UidSupply) : Arranged 0 { uids } := ⟨.empty, .empty⟩

theorem add (h : p.Arranged n) (hn : n + 1 < 2 ^ 64) (op : Operator) :
    Arranged (n + 1) (p.add op).2 where
  kept := h.kept.add hn _
  typed := h.typed.add h.kept.wellFormed h.kept.keysBelow

theorem keeps_invalidate : Pass.Keeps (Arranged n) (modify (·.invalidate id) : Edit Unit) :=
  .modify fun _ h => h.alike .invalidate

theorem remove : Pass.Keeps (Arranged n) (Plan.remove id) := fun p h => by
  unfold Plan.remove
  rw [after_onGraph]
  refine ⟨Kept.remove _ h.kept, ?_⟩
  unfold Pass.after
  cases hr : step (·.remove id) p.graph with
  | error e g => exact eq_of_step_error hr ▸ h.typed
  | ok op g => exact h.typed.remove (step_eq_ok.mp hr)

/-- Connecting asks whether the edge may be drawn. -/
theorem connectAt {i j : Nat} : Pass.Keeps (Arranged n) (Plan.connectAt a i b j) := fun p h => by
  unfold Plan.connectAt
  rw [Pass.after_bind]
  simp only [Pass.get_apply]
  rw [Pass.after_bind]
  cases hcheck : p.checkConnect a b with
  | error e => exact h
  | ok u =>
    obtain ⟨hfeed, hroom⟩ := mayFeed_of_checkConnect hcheck
    refine Arranged.onGraph (Kept.connectAt (i := fun _ => i) (j := fun _ => j) _ h.kept) ?_
      fun _ => keeps_invalidate
    unfold Pass.after
    cases hc : perform (·.connectAt a i b j) p.graph with
    | error e g => exact eq_of_step_error hc ▸ h.typed
    | ok v g => exact h.typed.connectAt hfeed hroom (perform_eq_ok.mp hc)

theorem disconnect : Pass.Keeps (Arranged n) (Plan.disconnect a b) := fun p h => by
  refine Arranged.onGraph (Kept.disconnect _ h.kept) ?_ fun _ =>
    .bind keeps_invalidate fun _ => .pure
  unfold Pass.after
  cases hd : step (·.disconnect a b) p.graph with
  | error e g => exact eq_of_step_error hd ▸ h.typed
  | ok slots g => exact (h.typed.disconnect h.kept.wellFormed (step_eq_ok.mp hd)).1

theorem insertBetween (h : p.Arranged n) (hfits : b ∈ p.successors a →
      p.graph.MayFeed a x ∧ p.graph.MayFeed x b ∧ p.graph.TakesInput x) :
    Arranged n (Pass.after (Plan.insertBetween a x b) p) :=
  .onGraph (Kept.insertBetween _ h.kept) (h.typed.insertBetween h.kept.wellFormed hfits)
    fun _ => keeps_invalidate

/-- Taking an operator out of its place, in a plan where schemas were forgotten. -/
theorem detaching {β : Type} {detach : Graph.Edit Operator β} (h : p.Arranged n)
    (hk : Pass.Keeps (Kept n) detach)
    (ht : ∀ g : Graph Operator, g.Typed → g.WellFormed → g.Passable x →
      (Pass.after detach g).Typed)
    (hpass : p.graph.Passable x) :
    Arranged n (Pass.after (Plan.detaching x detach) p) := by
  have hinv := Alike.invalidate (p := p) (x := x)
  have h' := h.alike hinv
  unfold Plan.detaching
  rw [Pass.after_bind]
  simp only [Pass.get_apply]
  rw [Pass.after_bind]
  simp only [Pass.modify_apply]
  refine .onGraph (hk _ h'.kept) (ht _ h'.typed h'.kept.wellFormed ?_) fun c =>
    .bind (.modify fun q hq => hq.alike (.foldl_invalidate _)) fun _ => .pure
  unfold Passable MayFeed at hpass ⊢
  simpa only [hinv.predecessors, hinv.successors, hinv.typeAt] using hpass

theorem update {f : Operator → Operator} (h : p.Arranged n)
    (hf : ∀ op, (f op).type = op.type ∨ p.graph.typeAt id ≠ some op.type) :
    Arranged n (Pass.after (Plan.update id f) p) := by
  have h' : Arranged n (p.invalidate id) := h.alike .invalidate
  unfold Plan.update
  rw [Pass.after_bind]
  simp only [Pass.get_apply]
  cases hid : p.contains id with
  | false => exact h
  | true =>
    refine ⟨⟨h'.kept.wellFormed.update, h'.kept.keysBelow.congr ids_update nextKey_update,
      h'.kept.nextKey⟩, h'.typed.update fun op hop => ?_⟩
    rcases hf op with hf | hf
    · exact hf
    · have htype : (p.invalidate id).graph.typeAt id = some op.type := by rw [typeAt, hop]; rfl
      exact absurd ((Alike.invalidate.typeAt).symm.trans htype) hf

theorem keptByDeriving : KeptByDeriving (Arranged n) :=
  .of_ok fun _ _ _ h hrun => h.alike (.deriveOne hrun)

end Arranged

end Plan

namespace Change

open Plan

/-- The edges that a composed edit draws without asking could be drawn by connecting, which is so
when an operator is taken out that is neither a load nor a store, and an operator that is altered
keeps its type. -/
def Fits (p : Plan) : Change → Prop
  | .insertBetween a x b => b ∈ p.successors a →
    p.graph.MayFeed a x ∧ p.graph.MayFeed x b ∧ p.graph.TakesInput x
  | .bypass x => p.graph.MayLeave x
  | .spliceOut x => p.graph.MayLeave x
  | .alter id _ operation => ∀ t ∈ p.graph.typeAt id, operation.type = t
  | _ => True

instance : ∀ c : Change, Decidable (c.Fits p)
  | .insertBetween a x b => inferInstanceAs (Decidable (b ∈ p.successors a →
    p.graph.MayFeed a x ∧ p.graph.MayFeed x b ∧ p.graph.TakesInput x))
  | .bypass x => inferInstanceAs (Decidable (p.graph.MayLeave x))
  | .spliceOut x => inferInstanceAs (Decidable (p.graph.MayLeave x))
  | .alter id _ operation =>
    inferInstanceAs (Decidable (∀ t ∈ p.graph.typeAt id, operation.type = t))
  | .add _ | .remove _ | .connect _ _ | .connectAt _ _ _ _ | .disconnect _ _ | .request _ =>
    .isTrue trivial

/-- The plan after some changes, of which each may have failed. -/
def runAll (changes : List Change) (p : Plan) : Plan :=
  changes.foldl (fun p c => Pass.after c.run p) p

/-- Every change fits where its turn comes. -/
def AllFit : List Change → Plan → Prop
  | [], _ => True
  | c :: rest, p => c.Fits p ∧ AllFit rest (Pass.after c.run p)

instance decidableAllFit : ∀ (changes : List Change) (p : Plan), Decidable (AllFit changes p)
  | [], _ => .isTrue trivial
  | c :: rest, p =>
    have := decidableAllFit rest (Pass.after c.run p)
    inferInstanceAs (Decidable (_ ∧ _))

/-- Every change that fits, however it ends, keeps edges typed. -/
theorem keeps_arranged {c : Change} (h : p.Arranged n) (hroom : n + c.keys < 2 ^ 64)
    (hfits : c.Fits p) : Arranged (n + c.keys) (Pass.after c.run p) := by
  cases c with
  | add op => exact h.add hroom op
  | remove id => exact Arranged.remove.discard p h
  | connect a b =>
    show Arranged n (Pass.after (Plan.connect a b) p)
    unfold Pass.after
    rw [connect_eq_connectAt]
    exact Arranged.connectAt p h
  | connectAt a i b j => exact Arranged.connectAt p h
  | disconnect a b => exact Arranged.disconnect.discard p h
  | insertBetween a x b => exact h.insertBetween hfits
  | bypass x =>
    show Arranged n (Pass.after (discard (Plan.bypass x)) p)
    rw [Pass.after_discard]
    exact h.detaching Kept.bypass (fun g => Typed.bypass) (h.typed.passable h.kept.wellFormed hfits)
  | spliceOut x =>
    exact h.detaching Kept.spliceOut (fun g => Typed.spliceOut)
      (h.typed.passable h.kept.wellFormed hfits)
  | alter id name operation =>
    refine h.update fun op => ?_
    by_cases ht : p.graph.typeAt id = some op.type
    · exact .inl (hfits _ ht)
    · exact .inr ht
  | request id => exact Arranged.keptByDeriving.schema p h

theorem runAll_arranged : ∀ {changes : List Change} {p : Plan} {n : Nat}, p.Arranged n →
    n + totalKeys changes < 2 ^ 64 → AllFit changes p →
    (runAll changes p).Arranged (n + totalKeys changes) := by
  intro changes
  induction changes with
  | nil =>
    intro p n h _ _
    exact h
  | cons c rest ih =>
    intro p n h hroom hfits
    obtain ⟨hfit, hrest⟩ := hfits
    have hsum : n + totalKeys (c :: rest) = n + c.keys + totalKeys rest := by
      simp [totalKeys, Nat.add_assoc]
    rw [hsum] at hroom ⊢
    exact ih (keeps_arranged h (by omega) hfit) hroom hrest

end Change

namespace Plan

/-- Loads follow stores only and stores lead to loads only, and the operators of some types have at
most one input. -/
structure Wired (single : OperatorType → Bool) (p : Plan) : Prop where
  loads : ∀ a b, a ∈ p.predecessors b → p.HasType b .load → p.HasType a .store
  stores : ∀ a b, b ∈ p.successors a → p.HasType a .store → p.HasType b .load
  inputs : ∀ b op, p.operator? b = some op → single op.type = true → (p.predecessors b).length ≤ 1

/-- The types of the operators that read rows from a single input. -/
def readsOne (t : OperatorType) : Bool := t != .load && !t.allowsMultipleInputs

theorem hasType_iff_typeAt {t : OperatorType} : p.HasType id t ↔ p.graph.typeAt id = some t := by
  rw [typeAt, Option.map_eq_some_iff]
  rfl

theorem Arranged.wired (h : p.Arranged n) : p.Wired readsOne := by
  have hends : ∀ a b, b ∈ p.graph.successors a →
      ∃ s t, p.graph.typeAt a = some s ∧ p.graph.typeAt b = some t ∧ (s = .store ↔ t = .load) := by
    intro a b hb
    obtain ⟨s, hs⟩ := Option.isSome_iff_exists.mp
      (content?_isSome.trans (contains_of_mem_successors hb))
    obtain ⟨t, ht⟩ := Option.isSome_iff_exists.mp
      (content?_isSome.trans (h.kept.wellFormed.target hb))
    have hs : p.graph.typeAt a = some s.type := by rw [typeAt, hs]; rfl
    have ht : p.graph.typeAt b = some t.type := by rw [typeAt, ht]; rfl
    exact ⟨_, _, hs, ht, h.typed.edges a b hb _ hs _ ht⟩
  refine ⟨fun a b ha hb => ?_, fun a b hb ha => ?_, fun b op hop hsingle => ?_⟩
  · obtain ⟨s, t, hs, ht, hiff⟩ := hends a b ((h.kept.wellFormed.edge a b).mpr ha)
    rw [hasType_iff_typeAt] at hb ⊢
    rw [hs, hiff.mpr (Option.some.inj (ht.symm.trans hb))]
  · obtain ⟨s, t, hs, ht, hiff⟩ := hends a b hb
    rw [hasType_iff_typeAt] at ha ⊢
    rw [ht, hiff.mp (Option.some.inj (hs.symm.trans ha))]
  · have hb : p.graph.typeAt b = some op.type := hasType_iff_typeAt.mp ⟨op, hop, rfl⟩
    obtain ⟨hl, hm⟩ : op.type ≠ .load ∧ op.type.allowsMultipleInputs = false := by
      simpa [readsOne] using hsingle
    exact h.typed.inputs b _ hb hl hm

/-- Whatever was changed, and whether or not it succeeded: while keys last and composed edits only
draw edges that could be drawn by connecting, only stores lead to loads, stores lead to nothing
else, and every operator that reads rows from a single input has at most one. -/
theorem wired_of_changes {changes : List Change} {uids : UidSupply}
    (hkeys : Change.totalKeys changes < 2 ^ 64) (hfits : Change.AllFit changes { uids })
    (hp : Change.runAll changes { uids } = p) : p.Wired readsOne := by
  have h := Change.runAll_arranged (.empty uids) (by simpa using hkeys) hfits
  rw [hp] at h
  exact h.wired

/-- Two loads, which filters and stores follow, and a load that waits for both stores. Some edges
are refused; a filter is placed on an edge, another one is taken out of its place. -/
def relayed : List Change :=
  let load : Operation := .load { location := "/in" }
  let kept : Operation := .filter (.constant (.boolean true))
  [.add { operation := load }, .add { operation := kept }, .add { operation := .store "/out" },
    .add { operation := load }, .add { operation := .store "/out" }, .add { operation := load },
    .add { operation := kept }, .connect ⟨0⟩ ⟨1⟩, .connectAt ⟨1⟩ 0 ⟨2⟩ 0, .connect ⟨3⟩ ⟨1⟩,
    .connect ⟨3⟩ ⟨4⟩, .connect ⟨1⟩ ⟨5⟩, .connect ⟨2⟩ ⟨5⟩, .connect ⟨4⟩ ⟨5⟩, .connect ⟨4⟩ ⟨6⟩,
    .insertBetween ⟨3⟩ ⟨6⟩ ⟨4⟩, .request ⟨4⟩, .bypass ⟨1⟩, .insertBetween ⟨0⟩ ⟨6⟩ ⟨4⟩]

theorem relayed_wired : (Change.runAll relayed {}).predecessors ⟨5⟩ = [⟨2⟩, ⟨4⟩] ∧
    (Change.runAll relayed {}).predecessors ⟨2⟩ = [⟨0⟩] ∧
    (Change.runAll relayed {}).predecessors ⟨4⟩ = [⟨6⟩] ∧
    (Change.runAll relayed {}).Wired readsOne :=
  ⟨by decide +kernel, by decide +kernel, by decide +kernel,
    wired_of_changes (by decide) (by decide +kernel) rfl⟩

/-- Two stores and a load that reads what both write. -/
def awaiting : List Change :=
  [.add { operation := .store "/a" }, .add { operation := .store "/b" },
    .add { operation := .load { location := "/a" } }, .connect ⟨0⟩ ⟨2⟩, .connect ⟨1⟩ ⟨2⟩]

/-- A store is placed on the edge from a load to a filter. -/
def diverted : List Change :=
  [.add { operation := .load { location := "/in" } },
    .add { operation := .filter (.constant (.boolean true)) }, .add { operation := .store "/out" },
    .connect ⟨0⟩ ⟨1⟩, .insertBetween ⟨0⟩ ⟨2⟩ ⟨1⟩]

/-- A store between a filter and a load, and a change after it. -/
def relaying (last : Change) : List Change :=
  [.add { operation := .load { location := "/in" } },
    .add { operation := .filter (.constant (.boolean true)) }, .add { operation := .store "/out" },
    .add { operation := .load { location := "/out" } }, .connect ⟨0⟩ ⟨1⟩, .connect ⟨1⟩ ⟨2⟩,
    .connect ⟨2⟩ ⟨3⟩, last]

/-- Types of a single input do not limit how many stores a load waits for, and composed edits can
make a store lead to a filter or, taking a store out of its place, a filter lead to a load. -/
theorem not_wired_all :
    ¬ (Change.runAll awaiting {}).Wired (fun t => !t.allowsMultipleInputs) ∧
    ¬ (Change.runAll diverted {}).Wired (fun t => !t.allowsMultipleInputs) ∧
    ∀ last ∈ [Change.spliceOut ⟨2⟩, .bypass ⟨2⟩],
      ¬ (Change.runAll (relaying last) {}).Wired fun t => !t.allowsMultipleInputs := by
  refine ⟨?_, ?_, ?_⟩
  · intro h
    have htwo : (Change.runAll awaiting {}).predecessors ⟨2⟩ = [⟨0⟩, ⟨1⟩] := by decide +kernel
    have hload : (Change.runAll awaiting {}).graph.typeAt ⟨2⟩ = some .load := by decide +kernel
    obtain ⟨op, hop, htype⟩ := hasType_iff_typeAt.mpr hload
    have hone := h.inputs ⟨2⟩ op hop (by rw [htype]; rfl)
    simp [htwo] at hone
  · intro h
    have hedge : ⟨1⟩ ∈ (Change.runAll diverted {}).successors ⟨2⟩ := by decide +kernel
    have hstore : (Change.runAll diverted {}).graph.typeAt ⟨2⟩ = some .store := by decide +kernel
    have hfilter : (Change.runAll diverted {}).graph.typeAt ⟨1⟩ = some .filter := by decide +kernel
    have hload := hasType_iff_typeAt.mp (h.stores ⟨2⟩ ⟨1⟩ hedge (hasType_iff_typeAt.mpr hstore))
    simp [hfilter] at hload
  · intro last hlast h
    have hedge : ∀ last ∈ [Change.spliceOut ⟨2⟩, .bypass ⟨2⟩],
        ⟨1⟩ ∈ (Change.runAll (relaying last) {}).predecessors ⟨3⟩ ∧
        (Change.runAll (relaying last) {}).graph.typeAt ⟨3⟩ = some .load ∧
        (Change.runAll (relaying last) {}).graph.typeAt ⟨1⟩ = some .filter := by decide +kernel
    obtain ⟨hpre, hload, hfilter⟩ := hedge last hlast
    have hstore := hasType_iff_typeAt.mp (h.loads ⟨1⟩ ⟨3⟩ hpre (hasType_iff_typeAt.mpr hload))
    simp [hfilter] at hstore

end Plan

end Dataflow

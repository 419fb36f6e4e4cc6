import Dataflow.Proofs.Plan.Mirror
import Dataflow.Proofs.Rewrite.Impassable

/-!
# Where plans read from

The optimizer changes filters and notes on loads which keys are needed. It adds no load and leaves
all of them where they are, so that an optimized plan reads from the places that the plan read from
before (`Optimizer.optimize_readsFrom`), whatever the plan is like.
-/

namespace Dataflow

open Dataflow.Graph

variable {places : String → Prop} {p q : Plan} {a b id : NodeId} {op : Operator}

/-- A load reads from one of the places. -/
def Operation.ReadsFrom (places : String → Prop) : Operation → Prop
  | .load l => places l.location
  | _ => True

theorem Operation.readsFrom_withoutUids {o : Operation} :
    o.withoutUids.ReadsFrom places ↔ o.ReadsFrom places := by
  cases o <;> exact .rfl

theorem Operation.readsFrom_withUids {o : Operation} {supply : UidSupply} (h : o.ReadsFrom places) :
    (o.withUids supply).1.ReadsFrom places := by
  cases o with
  | load l =>
    simp only [withUids]
    split
    · split_ifs <;> exact h
    · exact h
  | _ => trivial

namespace Plan

/-- All loads of the plan read from these places. -/
def ReadsFrom (places : String → Prop) (p : Plan) : Prop :=
  ∀ z op, p.operator? z = some op → op.operation.ReadsFrom places

theorem readsFrom_empty (uids : UidSupply) : ReadsFrom places { uids } := by
  intro z op hop
  simp [operator?, content?] at hop

namespace ReadsFrom

/-- Deriving schemas changes no more of a load than identities. -/
theorem alike (h : p.ReadsFrom places) (hq : Alike p q) : q.ReadsFrom places := by
  intro z op hop
  have hcore := hq.core z
  rw [hop, Option.map_some] at hcore
  obtain ⟨op', hop', hsame⟩ := Option.map_eq_some_iff.mp hcore.symm
  rw [← Operation.readsFrom_withoutUids, ← Operator.operation_core, ← hsame,
    Operator.operation_core, Operation.readsFrom_withoutUids]
  exact h z op' hop'

theorem refiltered (h : p.ReadsFrom places) (hq : Refiltered p q) : q.ReadsFrom places := by
  intro z op hop
  by_cases ht : op.type = .filter
  · have hfilter : ∃ f, op.operation = .filter f := by
      unfold Operator.type at ht
      cases ho : op.operation <;> simp_all [Operation.type]
    obtain ⟨f, hf⟩ := hfilter
    rw [hf]
    trivial
  · obtain ⟨op', hop', ho⟩ := hq.operations z op hop ht
    exact ho ▸ h z op' hop'

/-! ## Edits -/

theorem keptByDeriving : KeptByDeriving (ReadsFrom places) :=
  .of_ok fun _ _ _ h hrun => h.alike (Alike.deriveOne hrun)

theorem keeps_of_refiltered {β : Type} {edit : Edit β}
    (hedit : ∀ p, Pass.Keeps (Refiltered p) edit) : Pass.Keeps (ReadsFrom places) edit :=
  fun p h => h.refiltered (hedit p p .refl)

theorem keeps_connect : Pass.Keeps (ReadsFrom places) (connect a b) :=
  keeps_of_refiltered fun _ => Refiltered.keeps_connect

/-- What is added has to read from one of the places if it is a load. -/
theorem keeps_insert (hop : op.operation.ReadsFrom places) :
    Pass.Keeps (ReadsFrom places) (insert op) := by
  intro p h z op' hop'
  have hop' := content?_add.symm.trans hop'
  split at hop'
  · rw [← Option.some.inj hop']
    exact Operation.readsFrom_withUids hop
  · exact h z op' hop'

theorem keeps_append (hop : op.operation.ReadsFrom places) (inputs : List NodeId) :
    Pass.Keeps (ReadsFrom places) (append op inputs) :=
  .bind (keeps_insert hop) fun _ => .bind (.forM (fun _ => keeps_connect) inputs) fun _ => .pure

theorem keeps_annotate {table : KeyTable} : Pass.Keeps (ReadsFrom places) (annotate id table) := by
  intro p h
  unfold Pass.after annotate Plan.update
  rw [Pass.bind_of_ok Pass.get_apply]
  by_cases hid : p.contains id = true
  · rw [if_pos hid]
    intro z op hop
    have hop := content?_update.symm.trans hop
    have hinv : (p.invalidate id).ReadsFrom places := h.refiltered Refiltered.forgetAt
    split at hop
    · obtain ⟨op', hop', rfl⟩ := Option.map_eq_some_iff.mp hop
      have hreads := hinv z op' hop'
      split
      · next l hl => rwa [hl] at hreads
      · exact hreads
    · exact hinv z op hop
  · rw [if_neg hid]
    exact h

end ReadsFrom

end Plan

/-! ## Rules -/

/-- However checking a match or changing the plan there ends, the property of the plan is kept. -/
structure Rule.Preserves (I : Plan → Prop) (rule : Rule) : Prop where
  check : ∀ m, Pass.Keeps I (rule.check m)
  transform : ∀ m, Pass.Keeps I (rule.transform m)

namespace Rule

open Plan (ReadsFrom keeps_ofResult)

theorem splitFilter_preserves : splitFilter.Preserves (ReadsFrom places) where
  check _ := .bind keeps_ofResult fun _ => .bind .get fun _ => .bind keeps_ofResult fun _ => .pure
  transform _ := ReadsFrom.keeps_of_refiltered fun _ => Plan.Refiltered.keeps_splitFilter

theorem mergeFilter_preserves : mergeFilter.Preserves (ReadsFrom places) where
  check _ := .bind .get fun _ => .bind keeps_ofResult fun _ => .pure
  transform _ := ReadsFrom.keeps_of_refiltered fun _ => Plan.Refiltered.keeps_mergeFilter

theorem keeps_knownSchema {fault : InvariantFault} :
    Pass.Keeps (ReadsFrom places) (knownSchema id fault) := by
  refine .bind ReadsFrom.keptByDeriving.schema fun s => ?_
  cases s with
  | none => exact .throw
  | some s => exact .pure

theorem filterAboveForEach_preserves : filterAboveForEach.Preserves (ReadsFrom places) where
  check _ := .bind keeps_ofResult fun _ =>
    .bind ReadsFrom.keptByDeriving.eligibleFilter fun _ => .pure
  transform _ := by
    unfold filterAboveForEach
    refine .bind keeps_ofResult fun forEach => ?_
    refine .bind ReadsFrom.keptByDeriving.eligibleFilter fun found => ?_
    cases found with
    | none => exact .throw
    | some found =>
      refine .bind keeps_knownSchema fun _ => .bind keeps_knownSchema fun _ => .bind .get fun _ =>
        .bind keeps_ofResult fun f => ?_
      split
      · exact .throw
      · refine .bind .get fun _ => .bind .get fun _ => ?_
        refine .bind (ReadsFrom.keeps_of_refiltered fun _ => Plan.Refiltered.keeps_spliceOut)
          fun _ => ?_
        refine .bind (ReadsFrom.keeps_of_refiltered fun _ => Plan.Refiltered.keeps_setPredicate)
          fun _ => ?_
        exact .bind
          (ReadsFrom.keeps_of_refiltered fun _ => Plan.Refiltered.keeps_insertBetween) fun _ =>
            .pure

theorem defaultSets_preserve : ∀ set ∈ defaultSets, ∀ rule ∈ set.rules,
    rule.Preserves (ReadsFrom places) := by
  simp [defaultSets, splitFilter_preserves, mergeFilter_preserves, filterAboveForEach_preserves]

end Rule

/-! ## Runs of the optimizer -/

namespace Optimizer

variable {I : Plan → Prop} {config : Config} {rule : Rule} {iteration : Nat}
  {scope : Option (List NodeId)}

theorem keeps_transformFirst (h : rule.Preserves I) : ∀ found : List Match,
    Pass.Keeps I (transformFirst config rule found) := by
  intro found
  induction found with
  | nil => exact .pure
  | cons m found ih =>
    unfold transformFirst
    refine .bind .get fun p => ?_
    split
    · exact ih
    refine .bind (h.check m) fun passed => ?_
    split
    · exact ih
    refine .bind (h.transform m) fun region => ?_
    split
    · refine .bind .get fun q => ?_
      split
      · exact .bind .get fun _ => .pure
      · exact .bind .throw fun _ => .bind .get fun _ => .pure
    · exact .bind .get fun _ => .pure

theorem keeps_matchAndTransform (h : rule.Preserves I) :
    Pass.Keeps I (matchAndTransform config rule scope) :=
  .bind Plan.keeps_ofResult fun _ => .bind .get fun _ => .bind Plan.keeps_ofResult fun found =>
    keeps_transformFirst h found

theorem keeps_plan {β : Type} {edit : Plan.Edit β} (h : Pass.Keeps I edit) :
    Pass.Keeps (fun s => I s.plan) (onPlan edit) := by
  intro s hs
  have hkept := h s.plan hs
  unfold Pass.after onPlan at *
  cases hrun : edit s.plan with
  | ok b p => rwa [hrun] at hkept
  | error e p => rwa [hrun] at hkept

theorem keeps_onReport {f : Report → Report} : Pass.Keeps (fun s => I s.plan) (onReport f) :=
  .modify fun _ hs => hs

/-- An application that fails is undone, or its plan is that of the failed run. -/
theorem applyRepeatedly_preserves (h : rule.Preserves I) : ∀ (remaining applied : Nat)
    (scope : Option (List NodeId)), Pass.Keeps (fun s => I s.plan)
      (applyRepeatedly config rule iteration remaining applied scope) := by
  intro remaining
  induction remaining with
  | zero => exact fun _ _ => .bind keeps_onReport fun _ => .pure
  | succ remaining ih =>
    intro applied scope s hs
    have hset : ∀ q, I q → Pass.Keeps (fun s => I s.plan)
        (modify ({ · with plan := q }) : Run Unit) := fun q hq => .modify fun _ _ => hq
    have hkept : I (Pass.after (matchAndTransform config rule scope) s.plan) :=
      keeps_matchAndTransform h s.plan hs
    unfold Pass.after at hkept
    unfold applyRepeatedly
    rw [Pass.after_bind, Pass.get_apply]
    dsimp only
    cases hrun : matchAndTransform config rule scope s.plan with
    | ok found q =>
      rw [hrun] at hkept
      cases found with
      | none => exact (Pass.Keeps.bind (hset q hkept) fun _ => .pure) s hs
      | some region =>
        exact (Pass.Keeps.bind (hset q hkept) fun _ => .bind keeps_onReport fun _ => ih _ _) s hs
    | error e q =>
      rw [hrun] at hkept
      cases config.failurePolicy with
      | bestEffort => exact (Pass.Keeps.bind keeps_onReport fun _ => .pure) s hs
      | abort => exact (Pass.Keeps.bind (hset q hkept) fun _ => .throw) s hs

theorem applyRules_preserves : ∀ {rules : List Rule}, (∀ rule ∈ rules, rule.Preserves I) →
    Pass.Keeps (fun s => I s.plan) (applyRules config iteration rules) := by
  intro rules
  induction rules with
  | nil => exact fun _ => .pure
  | cons rule rules ih =>
    intro h
    obtain ⟨hrule, hrules⟩ := List.forall_mem_cons.mp h
    unfold applyRules
    refine .bind .get fun s => ?_
    split
    · exact ih hrules
    · refine .bind (.bind (.discard (keeps_plan Plan.keeps_ofResult)) fun _ => ?_) fun n =>
        .bind (ih hrules) fun _ => .pure
      exact applyRepeatedly_preserves hrule _ _ _

theorem fingerprint_preserves : Pass.Keeps (fun s => I s.plan) fingerprint :=
  keeps_plan (.bind .get fun _ => Plan.keeps_ofResult)

theorem repeatSet_preserves {set : RuleSet} (h : ∀ rule ∈ set.rules, rule.Preserves I) :
    ∀ (remaining iteration : Nat) (seen : List Digest),
      Pass.Keeps (fun s => I s.plan) (repeatSet config set remaining iteration seen) := by
  intro remaining
  induction remaining with
  | zero => exact fun _ _ => keeps_onReport
  | succ remaining ih =>
    intro iteration seen
    unfold repeatSet
    refine .bind keeps_onReport fun _ => .bind (applyRules_preserves h) fun changed => ?_
    split
    · refine .bind fingerprint_preserves fun now => ?_
      split
      · exact keeps_onReport
      · exact ih _ _
    · exact .pure

theorem runSets_preserves : ∀ {sets : List RuleSet},
    (∀ set ∈ sets, ∀ rule ∈ set.rules, rule.Preserves I) →
      Pass.Keeps (fun s => I s.plan) (runSets config sets) := by
  intro sets
  induction sets with
  | nil => exact fun _ => .pure
  | cons set sets ih =>
    intro h
    obtain ⟨hset, hsets⟩ := List.forall_mem_cons.mp h
    exact .bind fingerprint_preserves fun _ => .bind (repeatSet_preserves hset _ _ _) fun _ =>
      ih hsets

/-- An optimized plan reads from where the plan did that was to be optimized. -/
theorem optimize_readsFrom (config : Config) :
    Pass.Keeps (Plan.ReadsFrom places) (({ config } : Optimizer).optimize) := by
  have hrun : Pass.Keeps (fun s => Plan.ReadsFrom places s.plan) ({ config } : Optimizer).run := by
    unfold run
    refine .bind (keeps_plan (.bind Plan.keeps_ofResult fun _ => .bind .get fun _ =>
      Plan.keeps_ofResult)) fun _ => .bind (runSets_preserves Rule.defaultSets_preserve) fun _ => ?_
    split
    · refine .bind (keeps_plan ?_) fun _ => keeps_onReport
      exact Plan.ReadsFrom.keptByDeriving.pruneMapKeys fun _ _ => Plan.ReadsFrom.keeps_annotate
    · exact .pure
  intro p hp
  have hkept := hrun { plan := p } hp
  unfold Pass.after optimize at *
  cases hend : ({ config } : Optimizer).run { plan := p } with
  | ok u s => rwa [hend] at hkept
  | error e s => rwa [hend] at hkept

end Optimizer

end Dataflow

import Dataflow.Proofs.Engine.Running

/-!
# Outcomes

What can be seen of a plan that is prepared and executed: where each job writes, how it ends and
what it stored, and the storage at the end. Plans of the same flow have the same stages
(`SameFlow.stages`); if besides they fail at the same operators and store the same rows, they have
the same outcome (`outcome_congr`), whatever the storage and even if stages read what other ones
write.
-/

namespace Dataflow

open Dataflow.Graph Plan Engine

variable {p q r : Plan} {P Q : Prepared} {s : Storage} {d d' : NodeId → Meaning}
  {x z t : NodeId} {order stores : List NodeId} {stage : Stage}

namespace Plan

/-! ## Plans of the same flow -/

/-- The plans have operators of the same types at the same places, which read and write at the same
locations. -/
structure SameFlow (p q : Plan) : Prop where
  ids : q.graph.ids = p.graph.ids
  successors : ∀ id, q.graph.successors id = p.graph.successors id
  predecessors : ∀ id, q.graph.predecessors id = p.graph.predecessors id
  kind : ∀ id, (q.core? id).map (fun op => (op.type, op.operation.location?)) =
    (p.core? id).map fun op => (op.type, op.operation.location?)

theorem Alike.sameFlow (h : Alike p q) : SameFlow p q :=
  ⟨h.ids, h.successors, h.predecessors, fun id => by rw [h.core?]⟩

namespace SameFlow

theorem trans (h : SameFlow p q) (h' : SameFlow q r) : SameFlow p r :=
  ⟨h'.ids.trans h.ids, fun id => (h'.successors id).trans (h.successors id),
    fun id => (h'.predecessors id).trans (h.predecessors id),
    fun id => (h'.kind id).trans (h.kind id)⟩

theorem operator? (h : SameFlow p q) (id : NodeId) :
    (q.operator? id).map (fun op => (op.type, op.operation.location?)) =
      (p.operator? id).map fun op => (op.type, op.operation.location?) := by
  have hcore : ∀ r : Plan, (r.core? id).map (fun op => (op.type, op.operation.location?)) =
      (r.operator? id).map fun op => (op.type, op.operation.location?) := fun r => by
    rw [core?, Option.map_map]
    congr 1
    funext op
    simp
  rw [← hcore, ← hcore, h.kind]

theorem type (h : SameFlow p q) (id : NodeId) :
    (q.operator? id).map Operator.type = (p.operator? id).map Operator.type := by
  have := congrArg (Option.map Prod.fst) (h.operator? id)
  simpa [Option.map_map, Function.comp_def] using this

theorem location (h : SameFlow p q) (id : NodeId) :
    (q.operator? id >>= fun op => op.operation.location?) =
      p.operator? id >>= fun op => op.operation.location? := by
  have := congrArg (fun o => o.bind Prod.snd) (h.operator? id)
  simpa [Option.bind_map, Function.comp_def] using this

theorem contains (h : SameFlow p q) : q.graph.contains z = p.graph.contains z := by
  have := congrArg Option.isSome (h.type z)
  rw [Option.isSome_map, Option.isSome_map] at this
  rw [← content?_isSome, ← content?_isSome]
  exact this

theorem dataInputs (h : SameFlow p q) : q.dataInputs z = p.dataInputs z := by
  have htype := h.type z
  rw [dataInputs_eq, dataInputs_eq, h.predecessors]
  cases hq : q.operator? z <;> cases hp : p.operator? z <;> rw [hq, hp] at htype <;>
    simp at htype
  · dsimp only
    rw [htype]

theorem feeds (h : SameFlow p q) (hx : Feeds p t x) : Feeds q t x := by
  induction hx with
  | refl => exact .refl
  | step hx _ ih => exact .step (h.dataInputs.symm ▸ hx) ih

theorem symm (h : SameFlow p q) : SameFlow q p :=
  ⟨h.ids.symm, fun id => (h.successors id).symm, fun id => (h.predecessors id).symm,
    fun id => (h.kind id).symm⟩

theorem ofType (h : SameFlow p q) (type : OperatorType) (ids : List NodeId) :
    Prepared.ofType q type ids = Prepared.ofType p type ids :=
  List.filter_congr fun id _ => by rw [h.type]

theorem stageOf (h : SameFlow p q) (hp : p.graph.WellFormed) (hq : q.graph.WellFormed)
    (ht : p.graph.contains t = true) (order stores : List NodeId) :
    Prepared.stageOf q order stores t = Prepared.stageOf p order stores t := by
  have hmembers : ∀ x, (Prepared.members q t).contains x = (Prepared.members p t).contains x :=
    fun x => Bool.eq_iff_iff.mpr (by
      rw [List.contains_iff_mem, List.contains_iff_mem, mem_members hp ht,
        mem_members hq (h.contains.trans ht), h.contains]
      exact and_congr_right fun _ => ⟨h.symm.feeds, h.feeds⟩)
  have hpre : q.predecessors = p.predecessors := funext h.predecessors
  unfold Prepared.stageOf
  simp only [hmembers, h.ofType, hpre, h.location]

end SameFlow

/-- The stages of a prepared plan are those of its stores in topological order. -/
theorem stages_of_ofPlan (h : Prepared.ofPlan p = .ok P) : ∃ order,
    p.graph.topologicalOrder = .ok order ∧
      (Prepared.ofType P.plan .store order).mapM
        (Prepared.stageOf P.plan order (Prepared.ofType P.plan .store order)) = .ok P.stages := by
  unfold Prepared.ofPlan at h
  obtain ⟨_, -, h⟩ := Pass.except_bind_eq_ok.mp h
  obtain ⟨order, horder, h⟩ := Pass.except_bind_eq_ok.mp h
  refine ⟨order, orError_eq_ok.mp (Engine.ofResult_eq_ok.mp horder), ?_⟩
  cases hwidths : Prepared.widthsOf order p with
  | error e r => rw [hwidths] at h; simp at h
  | ok widths r =>
    rw [hwidths] at h
    obtain ⟨stages, hstages, h⟩ := Pass.except_bind_eq_ok.mp h
    obtain rfl : ({ plan := r, stages, widths } : Prepared) = P := by simpa using h
    exact hstages

/-- Plans of the same flow have the same stages. -/
theorem SameFlow.stages (h : SameFlow p q) (hp : p.Sound) (hq : q.Sound)
    (hP : Prepared.ofPlan p = .ok P) (hQ : Prepared.ofPlan q = .ok Q) : Q.stages = P.stages := by
  obtain ⟨order, horder, hstages⟩ := stages_of_ofPlan hP
  obtain ⟨order', horder', hstages'⟩ := stages_of_ofPlan hQ
  obtain rfl := topologicalOrder_congr h.ids h.successors h.predecessors horder horder'
  have hext := (ofPlan_eq_ok hp hP).derived
  have hext' := (ofPlan_eq_ok hq hQ).derived
  have hflow : SameFlow P.plan Q.plan :=
    (hext.alike.symm.sameFlow.trans h).trans hext'.alike.sameFlow
  have hcongr := Pass.mapM_congr (l := Prepared.ofType P.plan .store order')
    fun t ht => hflow.stageOf (hp.extends hext).wellFormed (hq.extends hext').wellFormed
      (t := t) (by
        obtain ⟨op, hop, -⟩ := Option.map_eq_some_iff.mp (eq_of_beq (List.mem_filter.mp ht).2)
        exact contains_of_operator? hop) order' (Prepared.ofType P.plan .store order')
  rw [hflow.ofType, hcongr, hstages] at hstages'
  exact (Except.ok.inj hstages').symm

end Plan

/-! ## What is seen of jobs -/

/-- What is seen of a job, the text of its error apart. -/
def Job.result (j : Job) : String × JobStatus × List Row := (j.location, j.status, j.records)

namespace Engine

/-- What is seen of a plan that is prepared and executed; none if it cannot be prepared. -/
def outcome (p : Plan) (s : Storage) :
    Option (List (String × JobStatus × List Row) × Storage) :=
  match Prepared.ofPlan p with
  | .ok P => some ((execute P s).1.map Job.result, (execute P s).2)
  | .error _ => none

theorem blocker?_congr (stage : Stage) {jobs jobs' : List Job}
    (h : jobs'.map Job.result = jobs.map Job.result) :
    (blocker? jobs' stage).map Job.result = (blocker? jobs stage).map Job.result := by
  have hget : ∀ i : Nat, (jobs'[i]?).map Job.result = (jobs[i]?).map Job.result := fun i => by
    rw [← List.getElem?_map, ← List.getElem?_map, h]
  have hfind : ∀ jobs : List Job, (jobs.find? (!·.isCompleted)).map Job.result =
      (jobs.map Job.result).find? fun r => !(r.2.1 == .completed) := fun jobs => by
    rw [List.find?_map]
    rfl
  unfold blocker?
  rw [hfind, hfind, List.map_filterMap, List.map_filterMap]
  simp only [hget]

section Congr

variable (hp : p.Sound) (hq : q.Sound) (hP : Prepares p P) (hQ : Prepares q Q)
  (hcompare : ∀ s, ∃ d d', Solves s p d ∧ Solves s q d' ∧
    (∀ z, p.graph.contains z = true → (SucceedsAt s p d z ↔ SucceedsAt s q d' z)) ∧
    ∀ z, p.HasType z .store → (d z).rows = (d' z).rows)

include hp hq hP hQ hcompare

theorem runStage_congr (h : IsStage p stage) (h' : IsStage q stage) (s : Storage) :
    (runStage Q stage s).toOption = (runStage P stage s).toOption := by
  obtain ⟨d, d', hd, hd', hsucceeds, hstored⟩ := hcompare s
  have hstore : p.HasType stage.store .store := by
    obtain ⟨name, hcore⟩ := h.store
    exact hasType_iff_core?.mpr ⟨_, hcore, rfl⟩
  have hall : (∀ z ∈ stage.operators, SucceedsAt s q d' z) ↔
      ∀ z ∈ stage.operators, SucceedsAt s p d z := by
    refine forall₂_congr fun z hz => (hsucceeds z ?_).symm
    rcases h.mem_operators.mp hz with rfl | ⟨hc, -⟩
    · exact hstore.contains
    · exact hc
  refine Option.ext fun r => ?_
  have hiff : ∀ {x : RunResult (Relation × Storage)}, x.toOption = some r ↔ x = .ok r := by
    intro x
    cases x <;> simp [Except.toOption]
  obtain ⟨rows, s'⟩ := r
  rw [hiff, hiff, runStage_eq_ok hp hP hd h, runStage_eq_ok hq hQ hd' h', hall, hstored _ hstore]

theorem runJob_congr (h : IsStage p stage) (h' : IsStage q stage) {jobs jobs' : List Job}
    (hjobs : jobs'.map Job.result = jobs.map Job.result) (s : Storage) :
    (runJob Q jobs' stage s).1.result = (runJob P jobs stage s).1.result ∧
      (runJob Q jobs' stage s).2 = (runJob P jobs stage s).2 := by
  have hblock := blocker?_congr stage hjobs
  have hrun := runStage_congr hp hq hP hQ hcompare h h' s
  unfold runJob
  cases hb : blocker? jobs stage <;> cases hb' : blocker? jobs' stage <;>
    rw [hb, hb'] at hblock <;> simp at hblock
  · cases hr : runStage P stage s <;> cases hr' : runStage Q stage s <;>
      rw [hr, hr'] at hrun <;> simp [Except.toOption] at hrun
    · exact ⟨rfl, rfl⟩
    · rw [hrun]
      exact ⟨rfl, rfl⟩
  · exact ⟨rfl, rfl⟩

theorem runStages_congr : ∀ (l : List Stage) (jobs jobs' : List Job) (s : Storage),
    (∀ stage ∈ l, IsStage p stage ∧ IsStage q stage) →
    jobs'.map Job.result = jobs.map Job.result →
    (runStages Q l jobs' s).1.map Job.result = (runStages P l jobs s).1.map Job.result ∧
      (runStages Q l jobs' s).2 = (runStages P l jobs s).2
  | [], jobs, jobs', s, _, hjobs => ⟨hjobs, rfl⟩
  | stage :: l, jobs, jobs', s, hl, hjobs => by
    obtain ⟨⟨h, h'⟩, hl⟩ := List.forall_mem_cons.mp hl
    obtain ⟨hjob, hs⟩ := runJob_congr hp hq hP hQ hcompare h h' hjobs s
    have ih := runStages_congr l (jobs ++ [(runJob P jobs stage s).1])
      (jobs' ++ [(runJob Q jobs' stage s).1]) (runJob P jobs stage s).2 hl
      (by rw [List.map_append, List.map_append, hjobs, List.map_singleton, hjob]; rfl)
    have hstep : ∀ (P : Prepared) (jobs : List Job), runStages P (stage :: l) jobs s =
        runStages P l (jobs ++ [(runJob P jobs stage s).1]) (runJob P jobs stage s).2 :=
      fun _ _ => rfl
    rw [hstep, hstep, hs]
    exact ih

end Congr

/-- Plans of the same flow that fail at the same operators and store the same rows, on every
storage, have the same outcome. -/
theorem outcome_congr (hp : p.Sound) (hq : q.Sound) (hflow : SameFlow p q)
    (hprepared : (∃ P, Prepared.ofPlan p = .ok P) ↔ ∃ Q, Prepared.ofPlan q = .ok Q)
    (hcompare : ∀ P, Prepared.ofPlan p = .ok P → ∀ s, ∃ d d', Solves s p d ∧ Solves s q d' ∧
      (∀ z, p.graph.contains z = true → (SucceedsAt s p d z ↔ SucceedsAt s q d' z)) ∧
      ∀ z, p.HasType z .store → (d z).rows = (d' z).rows) (s : Storage) :
    outcome q s = outcome p s := by
  unfold outcome
  cases hP : Prepared.ofPlan p with
  | error e =>
    cases hQ : Prepared.ofPlan q with
    | error e' => rfl
    | ok Q =>
      obtain ⟨P, hP'⟩ := hprepared.mpr ⟨Q, hQ⟩
      rw [hP] at hP'
      simp at hP'
  | ok P =>
    obtain ⟨Q, hQ⟩ := hprepared.mp ⟨P, hP⟩
    rw [hQ]
    have hprep := ofPlan_eq_ok hp hP
    have hprep' := ofPlan_eq_ok hq hQ
    have hstages := hflow.stages hp hq hP hQ
    obtain ⟨hjobs, hstorage⟩ := runStages_congr hp hq hprep hprep' (hcompare P hP) P.stages []
      [] s (fun stage hstage =>
        ⟨hprep.stages stage hstage, hprep'.stages stage (hstages ▸ hstage)⟩) rfl
    unfold execute
    dsimp only
    rw [hstages, hjobs, hstorage]

end Engine

end Dataflow

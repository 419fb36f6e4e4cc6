import Dataflow.Proofs.Engine.Outcome
import Dataflow.Proofs.Engine.Timely
import Mathlib.Logic.Relation

/-!
# Jobs in the order of stages

The stages of a prepared plan can be run from the first to the last: a stage stands behind those
that it depends on (`DependsOn.lt`). A stage whose upstream stages all completed is run on the
storage that the stages before it left; any other one is pending and leaves the storage as it is
(`jobs_of_stages`).
-/

namespace Dataflow

open Dataflow.Graph Plan Engine

variable {p q : Plan} {P : Prepared} {s : Storage} {stage other : Stage} {i j : Nat}
  {t : NodeId} {order stores : List NodeId} {jobs : List Job} {job : Job}

/-! ## What a stage depends on -/

namespace Prepared

/-- The stage at `i` loads what the stage at `j` stores. -/
def DependsOn (P : Prepared) (i j : Nat) : Prop :=
  ∃ stage, P.stages[i]? = some stage ∧ j ∈ stage.dependsOn

theorem dependsOn_iff_mem (hi : P.stages[i]? = some stage) :
    P.DependsOn i j ↔ j ∈ stage.dependsOn := by
  unfold DependsOn
  rw [hi]
  simp

theorem stageOf_eq_ok (h : stageOf q order stores t = .ok stage) :
    stage.store = t ∧ stage.dependsOn = (List.range stores.length).filter fun i =>
      (stores[i]?).any (((ofType q .load stage.operators).flatMap q.predecessors).contains ·) := by
  unfold stageOf at h
  dsimp only at h
  split at h
  · cases h
    exact ⟨rfl, rfl⟩
  · cases h

/-- The stages stand in the order of their stores. -/
theorem stages_in_order (hp : p.Sound) (h : ofPlan p = .ok P) : ∃ order,
    p.graph.topologicalOrder = .ok order ∧
      ofType P.plan .store order = P.stages.map Stage.store ∧
      (P.stages.map Stage.store).mapM (stageOf P.plan order (P.stages.map Stage.store)) =
        .ok P.stages := by
  have halike := (ofPlan_eq_ok hp h).derived.alike
  obtain ⟨order, horder, hstages⟩ := stages_of_ofPlan h
  obtain ⟨hnodup, hmem, hord⟩ := topologicalOrder_spec hp.wellFormed horder
  obtain ⟨stages, hmapM, hstores, -⟩ := stagesOf_spec hp.wellFormed hnodup hmem hord halike
  obtain rfl : stages = P.stages := Except.ok.inj (hmapM.symm.trans hstages)
  exact ⟨order, horder, hstores.symm, hstores ▸ hmapM⟩

/-- A stage depends on those whose stores its loads stand behind. -/
theorem dependsOn_iff (hp : p.Sound) (h : ofPlan p = .ok P) (hi : P.stages[i]? = some stage) :
    P.DependsOn i j ↔ ∃ other, P.stages[j]? = some other ∧
      ∃ load ∈ stage.operators, p.HasType load .load ∧
        other.store ∈ p.graph.predecessors load := by
  have halike := (ofPlan_eq_ok hp h).derived.alike
  obtain ⟨order, -, -, hstages⟩ := stages_in_order hp h
  obtain ⟨t, -, hstage⟩ := Pass.mapM_getElem? hstages hi
  obtain ⟨-, hdepends⟩ := stageOf_eq_ok hstage
  have hread : ∀ u, u ∈ (ofType P.plan .load stage.operators).flatMap P.plan.predecessors ↔
      ∃ load ∈ stage.operators, p.HasType load .load ∧ u ∈ p.graph.predecessors load := fun u => by
    rw [List.mem_flatMap]
    simp only [mem_ofType halike, and_assoc, Plan.predecessors, halike.predecessors]
  rw [dependsOn_iff_mem hi, hdepends, List.mem_filter, List.mem_range, List.length_map,
    List.getElem?_map]
  cases hj : P.stages[j]? with
  | none => simp
  | some other =>
    have hlt := (List.getElem?_eq_some_iff.mp hj).1
    simp only [hlt, true_and, Option.map_some, Option.any_some, List.contains_iff_mem, hread,
      Option.some.injEq, exists_eq_left']

/-- A stage stands behind those that it depends on. -/
theorem DependsOn.lt (hp : p.Sound) (h : ofPlan p = .ok P) (hij : P.DependsOn i j) : j < i := by
  obtain ⟨stage, hi, -⟩ := id hij
  obtain ⟨other, hj, load, hload, -, hpre⟩ := (dependsOn_iff hp h hi).mp hij
  obtain ⟨order, horder, hstores, -⟩ := stages_in_order hp h
  obtain ⟨hnodup, hmem, hord⟩ := topologicalOrder_spec hp.wellFormed horder
  have hstage := (ofPlan_eq_ok hp h).stages stage (List.mem_of_getElem? hi)
  have hloadmem : load ∈ order := (hmem load).mpr (contains_of_mem_predecessors hpre)
  -- the load feeds the store of the stage, and stands behind the other store
  have hfeeds : Feeds p stage.store load := by
    rcases hstage.mem_operators.mp hload with rfl | ⟨-, hfeeds⟩
    · exact .refl
    · exact hfeeds
  have hlt : order.idxOf other.store < order.idxOf stage.store :=
    Nat.lt_of_lt_of_le (hord.idxOf_lt hloadmem hpre) (hfeeds.idxOf_le hord hmem)
  have hsub : (P.stages.map Stage.store).Sublist order := hstores ▸ List.filter_sublist
  refine Lists.lt_of_idxOf_lt hnodup hsub ?_ ?_ hlt
  · rw [List.getElem?_map, hj]
    rfl
  · rw [List.getElem?_map, hi]
    rfl

end Prepared

/-! ## What is run before a stage -/

namespace Engine

/-- What a stage that was run leaves, given what came of it. -/
def ended (stage : Stage) (s : Storage) : RunResult (Relation × Storage) → Job × Storage
  | .ok (records, s') => ({ location := stage.location, status := .completed, records }, s')
  | .error e => ({ location := stage.location, status := .failed, error := some e.message },
      s.erase stage.location)

/-- What the stages before the one at `i` leave. -/
def before (P : Prepared) (s : Storage) (i : Nat) : List Job × Storage :=
  runStages P (P.stages.take i) [] s

theorem ended_status (stage : Stage) (s : Storage) (r : RunResult (Relation × Storage)) :
    (ended stage s r).1.status ≠ .pending := by
  cases r <;> simp [ended]

theorem runJob_of_blocked (h : blocker? jobs stage = some job) :
    (runJob P jobs stage s).1.status = .pending ∧ (runJob P jobs stage s).2 = s := by
  unfold runJob
  rw [h]
  exact ⟨rfl, rfl⟩

theorem runJob_of_free (h : blocker? jobs stage = none) :
    runJob P jobs stage s = ended stage s (runStage P stage s) := by
  cases hrun : runStage P stage s <;> simp [runJob, ended, h, hrun]

theorem runStages_append (l : List Stage) : ∀ (l' : List Stage) (jobs : List Job) (s : Storage),
    runStages P (l ++ l') jobs s =
      runStages P l' (runStages P l jobs s).1 (runStages P l jobs s).2 := by
  induction l with
  | nil => exact fun _ _ _ => rfl
  | cons stage l ih => exact fun l' jobs s => ih l' _ _

/-- Each stage adds one job to those before. -/
theorem runStages_jobs : ∀ (l : List Stage) (jobs : List Job) (s : Storage),
    ∃ new, (runStages P l jobs s).1 = jobs ++ new ∧ new.length = l.length
  | [], jobs, s => ⟨[], by simp [runStages], rfl⟩
  | stage :: l, jobs, s => by
    obtain ⟨new, hnew, hlen⟩ :=
      runStages_jobs l (jobs ++ [(runJob P jobs stage s).1]) (runJob P jobs stage s).2
    exact ⟨(runJob P jobs stage s).1 :: new, by rw [runStages, hnew]; simp, by simp [hlen]⟩

theorem before_succ (hi : P.stages[i]? = some stage) : before P s (i + 1) =
    ((before P s i).1 ++ [(runJob P (before P s i).1 stage (before P s i).2).1],
      (runJob P (before P s i).1 stage (before P s i).2).2) := by
  unfold before
  rw [List.take_add_one, hi, runStages_append]
  rfl

theorem execute_eq_before : execute P s = before P s P.stages.length := by
  rw [before, List.take_length, execute]

theorem length_before (hi : i ≤ P.stages.length) : (before P s i).1.length = i := by
  obtain ⟨new, hnew, hlen⟩ := runStages_jobs (P := P) (P.stages.take i) [] s
  rw [before, hnew, List.nil_append, hlen, List.length_take, Nat.min_eq_left hi]

/-- The jobs of the stages before one are the first ones of all jobs. -/
theorem before_jobs (hi : i ≤ P.stages.length) : (before P s i).1 = (execute P s).1.take i := by
  obtain ⟨new, hnew, -⟩ := runStages_jobs (P := P) (P.stages.drop i) (before P s i).1
    (before P s i).2
  have hall : (execute P s).1 = (before P s i).1 ++ new := by
    rw [← hnew, before, ← runStages_append, List.take_append_drop]
    rfl
  rw [hall, List.take_append_of_le_length (Nat.le_of_eq (length_before hi).symm),
    List.take_of_length_le (Nat.le_of_eq (length_before hi))]

/-- The job of a stage. -/
theorem job_of_stage (hi : P.stages[i]? = some stage) : (execute P s).1[i]? =
    some (runJob P (before P s i).1 stage (before P s i).2).1 := by
  have hlt := (List.getElem?_eq_some_iff.mp hi).1
  have htake := before_jobs (P := P) (s := s) (i := i + 1) hlt
  rw [before_succ hi] at htake
  have hlen := length_before (P := P) (s := s) (Nat.le_of_lt hlt)
  have := congrArg (·[i]?) htake
  simpa [hlen, List.getElem?_take] using this.symm

/-- The job at `i` was completed. -/
def Completed (P : Prepared) (s : Storage) (i : Nat) : Prop :=
  ∃ job, (execute P s).1[i]? = some job ∧ job.isCompleted = true

theorem not_completed_iff (hi : P.stages[i]? = some stage) :
    ¬Completed P s i ↔ ∃ job, (execute P s).1[i]? = some job ∧ job.isCompleted = false := by
  unfold Completed
  rw [job_of_stage hi]
  simp

/-- A stage is blocked by the jobs it depends on that did not complete. -/
theorem blocker?_isSome (hlt : ∀ j, P.DependsOn i j → j < i) (hi : P.stages[i]? = some stage) :
    (blocker? (before P s i).1 stage).isSome = true ↔
      ∃ j, P.DependsOn i j ∧ ¬Completed P s j := by
  have hlen := (List.getElem?_eq_some_iff.mp hi).1
  have hget : ∀ j ∈ stage.dependsOn, (before P s i).1[j]? = (execute P s).1[j]? := fun j hj => by
    rw [before_jobs (Nat.le_of_lt hlen), List.getElem?_take, if_pos (hlt j ⟨stage, hi, hj⟩)]
  have hjob : ∀ j, P.DependsOn i j → (¬Completed P s j ↔
      ∃ job, (execute P s).1[j]? = some job ∧ job.isCompleted = false) := fun j hj =>
    not_completed_iff (List.getElem?_eq_getElem (Nat.lt_trans (hlt j hj) hlen))
  unfold blocker?
  simp only [List.find?_isSome, List.mem_filterMap, Bool.not_eq_true']
  constructor
  · rintro ⟨job, ⟨j, hj, hmem⟩, hno⟩
    exact ⟨j, ⟨stage, hi, hj⟩, (hjob j ⟨stage, hi, hj⟩).mpr ⟨job, hget j hj ▸ hmem, hno⟩⟩
  · rintro ⟨j, hij, hno⟩
    obtain ⟨job, hmem, hno⟩ := (hjob j hij).mp hno
    have hj := (Prepared.dependsOn_iff_mem hi).mp hij
    exact ⟨job, ⟨j, hj, (hget j hj).trans hmem⟩, hno⟩

/-! ## Jobs -/

/-- The stage at `i` was not run: its job is pending, and the storage stays as the stages before it
left it. -/
def Skipped (P : Prepared) (s : Storage) (i : Nat) : Prop :=
  (∃ job, (execute P s).1[i]? = some job ∧ job.status = .pending) ∧
    (before P s (i + 1)).2 = (before P s i).2

/-- The job at `i` and the storage behind it are what came of running the stage on the storage that
the stages before it left. -/
def Ran (P : Prepared) (s : Storage) (i : Nat) (stage : Stage) : Prop :=
  let result := ended stage (before P s i).2 (runStage P stage (before P s i).2)
  (execute P s).1[i]? = some result.1 ∧ (before P s (i + 1)).2 = result.2

theorem Skipped.not_ran (h : Skipped P s i) : ¬Ran P s i stage := by
  obtain ⟨⟨job, hjob, hpending⟩, -⟩ := h
  rintro ⟨hran, -⟩
  rw [hran, Option.some.injEq] at hjob
  exact ended_status _ _ _ (hjob ▸ hpending)

theorem Skipped.not_completed (h : Skipped P s i) : ¬Completed P s i := by
  obtain ⟨⟨job, hjob, hpending⟩, -⟩ := h
  rintro ⟨job', hjob', hcompleted⟩
  rw [hjob, Option.some.injEq] at hjob'
  rw [← hjob', Job.isCompleted, hpending] at hcompleted
  cases hcompleted

/-- A stage is skipped if one that it depends on did not complete, and is run otherwise. -/
theorem skipped_or_ran (hlt : ∀ j, P.DependsOn i j → j < i) (hi : P.stages[i]? = some stage) :
    ((∃ j, P.DependsOn i j ∧ ¬Completed P s j) ∧ Skipped P s i) ∨
      (¬(∃ j, P.DependsOn i j ∧ ¬Completed P s j) ∧ Ran P s i stage) := by
  have hblock := blocker?_isSome (s := s) hlt hi
  have hjob := job_of_stage (s := s) hi
  have hnext := congrArg Prod.snd (before_succ (s := s) hi)
  cases hb : blocker? (before P s i).1 stage with
  | some job =>
    obtain ⟨hpending, hsame⟩ := runJob_of_blocked (s := (before P s i).2) hb
    exact .inl ⟨hblock.mp (by rw [hb]; rfl), ⟨_, hjob, hpending⟩, hnext.trans hsame⟩
  | none =>
    rw [runJob_of_free hb] at hjob hnext
    exact .inr ⟨fun hex => by simpa [hb] using hblock.mpr hex, hjob, hnext⟩

/-- It makes no difference whether a stage depends on another one directly or through others: those
between are pending when the last one did not complete. -/
theorem exists_uncompleted_iff (hlt : ∀ i j, P.DependsOn i j → j < i) :
    (∃ j, Relation.TransGen P.DependsOn i j ∧ ¬Completed P s j) ↔
      ∃ j, P.DependsOn i j ∧ ¬Completed P s j := by
  constructor
  · rintro ⟨j, hij, hj⟩
    induction hij using Relation.TransGen.head_induction_on with
    | single hij => exact ⟨j, hij, hj⟩
    | @head i k hik _ ih =>
      obtain ⟨stage, hk, -⟩ := ih.choose_spec.1
      rcases skipped_or_ran (s := s) (hlt k) hk with ⟨-, hskipped⟩ | ⟨hno, -⟩
      · exact ⟨k, hik, hskipped.not_completed⟩
      · exact absurd ih hno
  · rintro ⟨j, hij, hj⟩
    exact ⟨j, .single hij, hj⟩

end Engine

namespace Prepared

/-- The stages can be run from the first to the last, and each of them from its first operator to
its last. -/
structure Orderly (P : Prepared) (p : Plan) : Prop where
  stores : ∀ z, p.HasType z .store ↔ z ∈ P.stages.map Stage.store
  once : (P.stages.map Stage.store).Nodup
  nodup : ∀ stage ∈ P.stages, stage.operators.Nodup
  closed : ∀ stage ∈ P.stages, ∀ x ∈ stage.operators, ∀ y ∈ p.dataInputs x, y ∈ stage.operators
  ordered : ∀ stage ∈ P.stages, ∀ before x behind, stage.operators = before ++ x :: behind →
    ∀ y ∈ p.dataInputs x, y ∈ before
  ends : ∀ stage ∈ P.stages, stage.operators.getLast? = some stage.store
  upstream : ∀ i j, P.DependsOn i j → j < i

theorem orderly_of_ofPlan (hp : p.Sound) (h : ofPlan p = .ok P) : P.Orderly p where
  stores := (ofPlan_eq_ok hp h).stores
  once := (ofPlan_eq_ok hp h).once
  nodup stage hstage := by
    obtain ⟨before, heq, hnodup, hmem⟩ := ((ofPlan_eq_ok hp h).stages stage hstage).operators
    rw [heq, List.nodup_append]
    refine ⟨hnodup, List.nodup_singleton _, fun x hx y hy => ?_⟩
    rw [List.mem_singleton.mp hy]
    exact ((hmem x).mp hx).2.2
  closed stage hstage x hx y hy := by
    obtain ⟨before, behind, heq⟩ := List.append_of_mem hx
    have hbefore := ((ofPlan_eq_ok hp h).stages stage hstage).ordered before x behind heq y hy
    rw [heq]
    exact List.mem_append_left _ hbefore
  ordered stage hstage := ((ofPlan_eq_ok hp h).stages stage hstage).ordered
  ends stage hstage := by
    obtain ⟨before, heq, -⟩ := ((ofPlan_eq_ok hp h).stages stage hstage).operators
    rw [heq, List.getLast?_concat]
  upstream _ _ hij := hij.lt hp h

/-- A prepared plan has one stage for each store, in an order in which they can be run. Whatever the
storage, no stage asks for rows that are not there yet, and a stage is run if all those that it
depends on, directly or through others, were completed; otherwise it is pending. -/
theorem jobs_of_stages (hp : p.Sound) (h : ofPlan p = .ok P) : P.Orderly p ∧
    (∀ stage ∈ P.stages, ∀ s, Timely (runStage P stage s)) ∧
    ∀ s i stage, P.stages[i]? = some stage →
      ((∃ j, Relation.TransGen P.DependsOn i j ∧ ¬Completed P s j) ∧ Skipped P s i) ∨
        ((∀ j, Relation.TransGen P.DependsOn i j → Completed P s j) ∧ Ran P s i stage) := by
  have horderly := orderly_of_ofPlan hp h
  have hP := ofPlan_eq_ok hp h
  refine ⟨horderly, fun stage hstage s => timely_runStage hP (hP.stages stage hstage) s,
    fun s i stage hi => ?_⟩
  have hiff := exists_uncompleted_iff (i := i) (s := s) horderly.upstream
  rcases skipped_or_ran (s := s) (horderly.upstream i) hi with ⟨hex, hskipped⟩ | ⟨hno, hran⟩
  · exact .inl ⟨hiff.mpr hex, hskipped⟩
  · refine .inr ⟨fun j hij => ?_, hran⟩
    by_contra hj
    exact hno (hiff.mp ⟨j, hij, hj⟩)

/-- The output of a store is loaded again and stored at another place. -/
def relayPlan : Plan := made do
  let load ← append { operation := .load { location := "/in" } } []
  let middle ← append { operation := .store "/middle" } [load]
  let reload ← append { operation := .load { location := "/middle" } } [middle]
  let distinct ← append { operation := .distinct } [reload]
  append { operation := .store "/out" } [distinct]

/-- Without records to load, the first stage fails, and the second one is skipped. -/
theorem relayPlan_jobs : ∃ P, ofPlan relayPlan = .ok P ∧ P.Orderly relayPlan ∧
    P.DependsOn 1 0 ∧ ¬Completed P {} 0 ∧ Skipped P {} 1 := by
  have hsound : relayPlan.Sound :=
    sound_of_fresh (by decide +kernel) (by decide +kernel) (by decide +kernel)
  have hruns : (ofPlan relayPlan).toOption.map
      (fun P => (P.stages.map Stage.dependsOn, (execute P {}).1.map Job.status)) =
        some ([[], [0]], [.failed, .pending]) := by decide +kernel
  cases h : ofPlan relayPlan with
  | error e =>
    rw [h] at hruns
    cases hruns
  | ok P =>
    rw [h] at hruns
    obtain ⟨hdepends, hstatus⟩ := Prod.mk.inj (Option.some.inj hruns)
    obtain ⟨horderly, -, hjobs⟩ := jobs_of_stages hsound h
    obtain ⟨stage, hi, hstage⟩ : ∃ stage, P.stages[1]? = some stage ∧ stage.dependsOn = [0] := by
      have := congrArg (·[1]?) hdepends
      simpa using this
    have hedge : P.DependsOn 1 0 := ⟨stage, hi, by simp [hstage]⟩
    have hfailed : ¬Completed P {} 0 := by
      rintro ⟨job, hjob, hcompleted⟩
      have := congrArg (·[0]?) hstatus
      simp only [List.getElem?_map, hjob, Option.map_some] at this
      rw [Job.isCompleted, Option.some.inj this] at hcompleted
      cases hcompleted
    refine ⟨P, rfl, horderly, hedge, hfailed, ?_⟩
    rcases hjobs {} 1 stage hi with ⟨-, hskipped⟩ | ⟨hall, -⟩
    · exact hskipped
    · exact absurd (hall 0 (.single hedge)) hfailed

end Prepared

end Dataflow

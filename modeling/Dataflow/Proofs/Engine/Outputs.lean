import Dataflow.Proofs.Engine.Jobs
import Dataflow.Proofs.Plan.Mirror

/-!
# What is stored at the end

A stage that is run changes the storage at its own location only: it puts its records there, or
removes what is there if it fails. So at the end a location holds what the last of its stages that
were run has left (`stored_at_end`). The records of a completed job are lost if a later stage of the
same location fails (`not_all_stored`).
-/

namespace Dataflow

section

open Dataflow.Graph Plan Engine Prepared

variable {p : Plan} {P : Prepared} {s : Storage} {stage : Stage} {i k : Nat} {location : String}

namespace Storage

theorem get?_insert_self {records : List Row} :
    (s.insert location records).get? location = some records := by
  unfold insert get?
  rw [Std.TreeMap.getElem?_insert_self]

theorem get?_erase_self : (s.erase location).get? location = none := by
  unfold erase get?
  rw [Std.TreeMap.getElem?_erase_self]

end Storage

namespace Engine

/-! ## One stage -/

/-- What comes of running a stage is at its location. -/
theorem stored_by_stage (hp : p.Sound) (hP : Prepares p P) (hstage : IsStage p stage) :
    ∃ job s', ended stage s (runStage P stage s) = (job, s') ∧
      s'.get? stage.location = (if job.isCompleted then some job.records else none) ∧
      ∀ other, stage.location ≠ other → s'.get? other = s.get? other := by
  obtain ⟨d, hd⟩ := exists_solves s hp.wellFormed hP.valid.acyclic
  have hspec := runStage_spec hp hP hd hstage
  cases hrun : runStage P stage s with
  | error e =>
    exact ⟨_, _, rfl, Storage.get?_erase_self, fun other h => Storage.get?_erase h⟩
  | ok r =>
    rw [hrun] at hspec
    obtain ⟨-, -, hs⟩ := hspec
    refine ⟨_, _, rfl, ?_, fun other h => ?_⟩
    · rw [hs]
      exact Storage.get?_insert_self
    · rw [hs]
      exact Storage.get?_insert h

/-- A stage that is skipped or has another location leaves a location as it is. -/
theorem kept_by_stage (hp : p.Sound) (h : ofPlan p = .ok P) (hi : P.stages[i]? = some stage)
    (hlocation : stage.location = location → Skipped P s i) :
    (before P s (i + 1)).2.get? location = (before P s i).2.get? location := by
  have hP := ofPlan_eq_ok hp h
  rcases skipped_or_ran (s := s) (fun j hij => hij.lt hp h) hi with ⟨-, -, hsame⟩ | ⟨-, hran⟩
  · rw [hsame]
  · obtain ⟨job, s', hended, -, hother⟩ :=
      stored_by_stage (s := (before P s i).2) hp hP (hP.stages stage (List.mem_of_getElem? hi))
    have hne : stage.location ≠ location := fun heq => (hlocation heq).not_ran hran
    rw [hran.2, hended]
    exact hother location hne

/-! ## The stages in turn -/

/-- A location stays as it is while its stages are skipped. -/
theorem kept_by_stages (hp : p.Sound) (h : ofPlan p = .ok P) (hik : i ≤ k)
    (hk : k ≤ P.stages.length) (hall : ∀ j stage, i ≤ j → P.stages[j]? = some stage →
      stage.location = location → Skipped P s j) :
    (before P s k).2.get? location = (before P s i).2.get? location := by
  induction k, hik using Nat.le_induction with
  | base => rfl
  | succ k hik ih =>
    have hget := List.getElem?_eq_getElem hk
    rw [kept_by_stage hp h hget (hall k _ hik hget), ih (Nat.le_of_succ_le hk)]

/-- The last stage of a location that is not skipped decides what is stored there at the end: the
records of its job if that is completed, and nothing if it failed. A location of which no stage is
run keeps what it held. -/
theorem stored_at_end (hp : p.Sound) (h : ofPlan p = .ok P) (s : Storage) :
    (∀ i stage, P.stages[i]? = some stage → ¬Skipped P s i →
      (∀ k other, i < k → P.stages[k]? = some other → other.location = stage.location →
        Skipped P s k) →
      ∃ job, (execute P s).1[i]? = some job ∧ (execute P s).2.get? stage.location =
        if job.isCompleted then some job.records else none) ∧
    ∀ location, (∀ i stage, P.stages[i]? = some stage → stage.location = location →
        Skipped P s i) → (execute P s).2.get? location = s.get? location := by
  have hP := ofPlan_eq_ok hp h
  refine ⟨fun i stage hi hnot hlater => ?_, fun location hall => ?_⟩
  · have hlen := (List.getElem?_eq_some_iff.mp hi).1
    rcases skipped_or_ran (s := s) (fun j hij => hij.lt hp h) hi with ⟨-, hskipped⟩ | ⟨-, hran⟩
    · exact absurd hskipped hnot
    · obtain ⟨job, s', hended, hstored, -⟩ :=
        stored_by_stage (s := (before P s i).2) hp hP (hP.stages stage (List.mem_of_getElem? hi))
      obtain ⟨hjob, hstorage⟩ := hran
      rw [hended] at hjob hstorage
      refine ⟨job, hjob, ?_⟩
      rw [execute_eq_before, kept_by_stages hp h hlen (Nat.le_refl _)
        (fun k other hk hget hloc => hlater k other hk hget hloc), hstorage]
      exact hstored
  · rw [execute_eq_before, kept_by_stages hp h (Nat.zero_le _) (Nat.le_refl _)
      fun j stage _ hj hloc => hall j stage hj hloc]
    rfl

/-! ## Two stores of one location -/

/-- Two loads are stored at one location. -/
def sharedPlan : Plan := made do
  let first ← append { operation := .load { location := "/in" } } []
  let second ← append { operation := .load { location := "/gone" } } []
  let _ ← append { operation := .store "/out" } [first]
  append { operation := .store "/out" } [second]

theorem sharedPlan_sound : sharedPlan.Sound :=
  sound_of_fresh (by decide +kernel) (by decide +kernel) (by decide +kernel)

/-- The first stage is completed, and the second one fails. -/
theorem exists_sharedPlan_jobs : ∃ P, ofPlan sharedPlan = .ok P ∧
    (∃ first second, P.stages = [first, second] ∧ first.location = "/out" ∧
      second.location = "/out") ∧
    ∃ done failed, (execute P .oneRecord).1 = [done, failed] ∧ done.status = .completed ∧
      failed.status = .failed := by
  have hruns : (ofPlan sharedPlan).toOption.map (fun P => (P.stages.map Stage.location,
      (execute P .oneRecord).1.map Job.status)) =
        some (["/out", "/out"], [.completed, .failed]) := by decide +kernel
  cases h : ofPlan sharedPlan with
  | error e =>
    rw [h] at hruns
    cases hruns
  | ok P =>
    rw [h] at hruns
    obtain ⟨hlocations, hjobs⟩ := Prod.mk.inj (Option.some.inj hruns)
    refine ⟨P, rfl, ?_, ?_⟩
    · simpa [List.map_eq_cons_iff, and_assoc, and_left_comm] using hlocations
    · simpa [List.map_eq_cons_iff, and_assoc, and_left_comm] using hjobs

/-- The stage that failed decides: nothing is stored at the end. -/
theorem sharedPlan_stored : ∃ P, ofPlan sharedPlan = .ok P ∧
    (execute P .oneRecord).2.get? "/out" = none := by
  obtain ⟨P, h, ⟨first, second, hstages, -, hlocation⟩, done, failed, hjobs, -, hfailed⟩ :=
    exists_sharedPlan_jobs
  refine ⟨P, h, ?_⟩
  obtain ⟨job, hjob, hstored⟩ := (stored_at_end sharedPlan_sound h .oneRecord).1 1 second
    (by rw [hstages]; rfl)
    (fun ⟨⟨job, hjob, hpending⟩, _⟩ => by
      rw [hjobs] at hjob
      cases hjob
      rw [hfailed] at hpending
      cases hpending)
    (fun k other hk hget => by
      have hlt := (List.getElem?_eq_some_iff.mp hget).1
      rw [hstages] at hlt
      exact absurd hk (Nat.not_lt.mpr (Nat.le_of_lt_succ hlt)))
  rw [hjobs] at hjob
  cases hjob
  rw [hlocation, Job.isCompleted, hfailed] at hstored
  exact hstored

/-- Not all that completed jobs store is there at the end, even if no later job completes at the
same location. -/
theorem not_all_stored : ¬∀ (p : Plan) (P : Prepared) (s : Storage), p.Sound →
    ofPlan p = .ok P → ∀ i stage (job : Job), P.stages[i]? = some stage →
      (execute P s).1[i]? = some job → job.isCompleted = true →
      (∀ k other, i < k → P.stages[k]? = some other → other.location = stage.location →
        ¬Completed P s k) →
      (execute P s).2.get? stage.location = some job.records := by
  intro hall
  obtain ⟨P, h, ⟨first, second, hstages, hfirst, -⟩, done, failed, hjobs, hdone, hfailed⟩ :=
    exists_sharedPlan_jobs
  have hstored := hall sharedPlan P .oneRecord sharedPlan_sound h 0 first done
    (by rw [hstages]; rfl) (by rw [hjobs]; rfl) (by rw [Job.isCompleted, hdone]; rfl)
    (fun k other hk hget _ ⟨job, hjob, hcompleted⟩ => by
      have hlt := (List.getElem?_eq_some_iff.mp hget).1
      rw [hstages] at hlt
      obtain rfl : k = 1 := by
        simp only [List.length_cons, List.length_nil] at hlt
        omega
      rw [hjobs] at hjob
      cases hjob
      rw [Job.isCompleted, hfailed] at hcompleted
      cases hcompleted)
  have hgone : (ofPlan sharedPlan).toOption.map (fun P =>
      ((execute P .oneRecord).2.get? "/out").isSome) = some false := by decide +kernel
  rw [hfirst] at hstored
  simp [h, Except.toOption, hstored] at hgone

end Engine

end

/-!
## Storages that plans come to

When every location is written by one store at most, and the loads of a location wait for its store,
a load reads the same records in whichever stage it is evaluated, and they are what its location
holds at the end. So if all jobs are completed, the storage at the end is the only one on which
every store means the records that it finds at its location (`final_of_completed`).
-/

section

open Dataflow.Graph Plan Engine Prepared

variable {p : Plan} {P : Prepared} {s s' : Storage} {d d' : NodeId → Meaning} {stage : Stage}
  {i : Nat} {z : NodeId}

namespace Plan

/-- The loads of a location wait for the stores that write it. -/
def LoadsWait (p : Plan) : Prop :=
  ∀ x z l location nx nz, p.core? x = some { name := nx, operation := .load l } →
    p.core? z = some { name := nz, operation := .store location } → l.location = location →
      z ∈ p.graph.predecessors x

/-- Operators mean the same on storages that agree wherever the loads read from which rows come to
them. -/
theorem Solves.agree (hd : Solves s p d) (hd' : Solves s' p d') (hwf : p.graph.WellFormed)
    (hac : p.graph.Acyclic) {ids : List NodeId} (hclosed : ∀ x ∈ ids, ∀ y ∈ p.dataInputs x, y ∈ ids)
    (hreads : ∀ x ∈ ids, ∀ name l, p.core? x = some { name, operation := .load l } →
      s.get? l.location = s'.get? l.location) :
    ∀ x ∈ ids, p.graph.contains x = true → d x = d' x := by
  obtain ⟨rank, hrank⟩ := hac
  intro x
  induction h : rank x using Nat.strongRecOn generalizing x with
  | _ n ih =>
    intro hx hc
    obtain ⟨op, hop⟩ := exists_operator? hc
    have hcore : p.core? x = some op.core := by rw [core?, hop]; rfl
    have hinputs : (p.dataInputs x).map d = (p.dataInputs x).map d' :=
      List.map_congr_left fun y hy =>
        ih (rank y) (h ▸ rank_of_mem_dataInputs hwf hrank hy) y rfl (hclosed x hx y hy)
          (contains_of_mem_dataInputs hwf hy)
    rw [hd x _ hcore, hd' x _ hcore, hinputs]
    refine (operation_congr fun l hl => hreads x hx op.name l ?_).1
    rw [hcore, ← hl]
    rfl

end Plan

namespace Engine

/-- A load reads in each stage what its location holds at the end. -/
theorem read_in_stage (hp : p.Sound) (h : ofPlan p = .ok P) (hwait : p.LoadsWait)
    (hi : P.stages[i]? = some stage) {x : NodeId} (hx : x ∈ stage.operators) {name : Option String}
    {l : Load} (hload : p.core? x = some { name, operation := .load l }) :
    (before P s i).2.get? l.location = (execute P s).2.get? l.location := by
  have hlen := (List.getElem?_eq_some_iff.mp hi).1
  rw [execute_eq_before]
  refine (kept_by_stages hp h (Nat.le_of_lt hlen) (Nat.le_refl _)
    fun j other hij hj hloc => ?_).symm
  -- the stage of a store of the location stands before the load
  obtain ⟨nz, hstore⟩ := ((ofPlan_eq_ok hp h).stages other (List.mem_of_getElem? hj)).store
  have hpre := hwait x other.store l other.location name nz hload hstore hloc.symm
  have hdepends : P.DependsOn i j := (dependsOn_iff hp h hi).mpr
    ⟨other, hj, x, hx, hasType_iff_core?.mpr ⟨_, hload, rfl⟩, hpre⟩
  exact absurd (hdepends.lt hp h) (Nat.not_lt.mpr hij)

/-- When all jobs are completed, each store means the records at its location, and what is no
location of a store is as before. -/
theorem final_of_completed (hp : p.Sound) (h : ofPlan p = .ok P) (hapart : p.StoresApart)
    (hwait : p.LoadsWait) (hdone : ∀ i < P.stages.length, Completed P s i)
    (hd : Solves (execute P s).2 p d) :
    (∀ z name location, p.core? z = some { name, operation := .store location } →
      (execute P s).2.get? location = some (d z).rows) ∧
    ∀ location, (∀ z name, p.core? z ≠ some { name, operation := .store location }) →
      (execute P s).2.get? location = s.get? location := by
  have hP := ofPlan_eq_ok hp h
  refine ⟨fun z name location hz => ?_, fun location hnone => ?_⟩
  · obtain ⟨stage, hmem, rfl⟩ := List.mem_map.mp
      ((hP.stores z).mp (hasType_iff_core?.mpr ⟨_, hz, rfl⟩))
    obtain ⟨i, hi⟩ := List.getElem?_of_mem hmem
    have hlen := (List.getElem?_eq_some_iff.mp hi).1
    have hstage := hP.stages stage hmem
    obtain ⟨ns, hstore⟩ := hstage.store
    obtain ⟨-, rfl⟩ : name = ns ∧ location = stage.location := by simpa [hz] using hstore
    -- what the stage stores
    obtain ⟨d', hd'⟩ := exists_solves (before P s i).2 hp.wellFormed hP.valid.acyclic
    have hstored : (before P s (i + 1)).2.get? stage.location = some (d' stage.store).rows := by
      rcases skipped_or_ran (s := s) (fun j hij => hij.lt hp h) hi with ⟨-, hskipped⟩ | ⟨-, hran⟩
      · exact absurd (hdone i hlen) hskipped.not_completed
      obtain ⟨job, hjob, hcompleted⟩ := hdone i hlen
      obtain ⟨hresult, hnext⟩ := hran
      obtain rfl := Option.some.inj (hresult.symm.trans hjob)
      cases hrun : runStage P stage (before P s i).2 with
      | error e => simp [hrun, ended, Job.isCompleted] at hcompleted
      | ok r =>
        obtain ⟨-, hrows, hs⟩ := (runStage_eq_ok hp hP hd' hstage).mp hrun
        rw [hnext, hrun, ended, hs, Storage.get?_insert_self, hrows]
    have hsame := hd'.agree hd hp.wellFormed hP.valid.acyclic
      ((orderly_of_ofPlan hp h).closed stage hmem)
      (fun x hx name l hl => read_in_stage hp h hwait hi hx hl) stage.store
      (hstage.mem_operators.mpr (.inl rfl)) ((hP.stores _).mpr (List.mem_map_of_mem hmem)).contains
    rw [execute_eq_before, ← hsame, ← hstored]
    refine kept_by_stages hp h hlen (Nat.le_refl _) fun j other hij hj hloc => ?_
    -- there is no other stage of the location
    obtain ⟨no, hother⟩ := (hP.stages other (List.mem_of_getElem? hj)).store
    have heq := hapart other.store stage.store stage.location no name (hloc ▸ hother) hz
    have hj' : (P.stages.map Stage.store)[j]? = (P.stages.map Stage.store)[i]? := by
      rw [List.getElem?_map, List.getElem?_map, hj, hi, Option.map_some, Option.map_some, heq]
    have hjlen := (List.getElem?_eq_some_iff.mp hj).1
    have := (List.getElem?_inj (by simpa using hjlen) hP.once).mp hj'
    omega
  · refine (stored_at_end hp h s).2 location fun i stage hi hloc => ?_
    obtain ⟨name, hstore⟩ := (hP.stages stage (List.mem_of_getElem? hi)).store
    exact absurd (hloc ▸ hstore) (hnone stage.store name)

end Engine

end

/-!
## Locations that are not written

Running a plan changes a storage only where stores of the plan write to, whether or not stages fail
and whatever the plan is like. So a load finds in every stage what was at its location before the
run, if no store writes there (`Engine.found_in_stage`).
-/

section

open Engine

variable {p q : Plan} {P : Prepared} {s s' : Storage} {location : String} {stage : Stage}

namespace Plan

/-- No store of the plan writes to the location. -/
def Unwritten (p : Plan) (location : String) : Prop :=
  ∀ z op, p.operator? z = some op → op.operation ≠ .store location

theorem Unwritten.alike (h : p.Unwritten location) (hq : Alike p q) : q.Unwritten location := by
  intro z op hop hstore
  have hcore := hq.core z
  rw [hop, Option.map_some] at hcore
  obtain ⟨op', hop', hsame⟩ := Option.map_eq_some_iff.mp hcore.symm
  refine h z op' hop' (Operation.withoutUids_eq_store.mp ?_)
  rw [← Operator.operation_core, hsame, Operator.operation_core, hstore]
  rfl

end Plan

namespace Prepared

theorem keeps_widthsOf {I : Plan → Prop} (hI : Plan.KeptByDeriving I) : ∀ ids : List NodeId,
    Pass.Keeps I (widthsOf ids) := by
  intro ids
  induction ids with
  | nil => exact .pure
  | cons id ids ih =>
    unfold widthsOf
    exact .bind hI.schema fun _ => .bind ih fun _ => .pure

/-- Preparing a plan changes nothing but what is derived. -/
theorem alike_of_ofPlan (h : ofPlan p = .ok P) : Plan.Alike p P.plan := by
  unfold ofPlan at h
  obtain ⟨_, -, h⟩ := Pass.except_bind_eq_ok.mp h
  obtain ⟨order, -, h⟩ := Pass.except_bind_eq_ok.mp h
  cases hwidths : widthsOf order p with
  | error e r =>
    rw [hwidths] at h
    simp at h
  | ok widths r =>
    rw [hwidths] at h
    obtain ⟨stages, -, h⟩ := Pass.except_bind_eq_ok.mp h
    obtain rfl : ({ plan := r, stages, widths } : Prepared) = P := by simpa using h
    exact (keeps_widthsOf Plan.alike_deriveOne order).of_ok .refl hwidths

/-- The location of a stage is the one that its store writes to. -/
theorem exists_store_of_stageOf {order stores : List NodeId} {t : NodeId}
    (ht : t ∈ ofType q .store order) (h : stageOf q order stores t = .ok stage) :
    ∃ op, q.operator? t = some op ∧ op.operation = .store stage.location := by
  obtain ⟨-, ht⟩ := List.mem_filter.mp ht
  obtain ⟨op, hop, htype⟩ : ∃ op, q.operator? t = some op ∧ op.type = .store := by
    simpa [Option.map_eq_some_iff] using ht
  refine ⟨op, hop, ?_⟩
  unfold stageOf at h
  dsimp only at h
  split at h
  · next written hread =>
    obtain rfl : _ = stage := Except.ok.inj h
    rw [hop] at hread
    unfold Operator.type at htype
    cases ho : op.operation with
    | store other =>
      have hlocation : op.operation.location? = some written := hread
      rw [ho] at hlocation
      exact congrArg _ (Option.some.inj hlocation)
    | _ =>
      rw [ho] at htype
      cases htype
  · cases h

theorem location_ne_of_unwritten (h : ofPlan p = .ok P) (hw : p.Unwritten location) :
    ∀ stage ∈ P.stages, stage.location ≠ location := by
  intro stage hstage hlocation
  obtain ⟨order, -, hstages⟩ := Plan.stages_of_ofPlan h
  obtain ⟨t, ht, hstage⟩ := Pass.exists_of_mem_mapM hstages stage hstage
  obtain ⟨op, hop, ho⟩ := exists_store_of_stageOf ht hstage
  exact hw.alike (alike_of_ofPlan h) t op hop (hlocation ▸ ho)

end Prepared

namespace Engine

theorem evalOperation_unwritten {id : NodeId} {o : Operation} {inputs : List Relation}
    {r : Relation × Storage} (ho : o ≠ .store location)
    (h : evalOperation P id o inputs s = .ok r) : r.2.get? location = s.get? location := by
  unfold evalOperation at h
  cases o with
  | store written =>
    obtain ⟨rows, -, h⟩ := Pass.except_bind_eq_ok.mp h
    obtain ⟨s', hs', h⟩ := Pass.except_bind_eq_ok.mp h
    obtain ⟨-, rfl⟩ := store_eq_ok.mp (ofResult_eq_ok.mp hs')
    obtain rfl := Except.ok.inj h
    exact Storage.get?_insert fun heq => ho (heq ▸ rfl)
  | load _ | split | join _ _ | distinct | limit _ =>
    obtain ⟨_, -, h⟩ := Pass.except_bind_eq_ok.mp h
    obtain rfl := Except.ok.inj h
    rfl
  | filter _ | splitOutput _ | forEach _ | sort _ =>
    obtain ⟨_, -, h⟩ := Pass.except_bind_eq_ok.mp h
    obtain ⟨_, -, h⟩ := Pass.except_bind_eq_ok.mp h
    obtain rfl := Except.ok.inj h
    rfl
  | cross | union _ =>
    obtain rfl := Except.ok.inj h
    rfl

theorem evalOperators_unwritten (hw : P.plan.Unwritten location) : ∀ {ids : List NodeId}
    {results : Results} {s : Storage} {r : Results × Storage},
    evalOperators P ids results s = .ok r → r.2.get? location = s.get? location := by
  intro ids
  induction ids with
  | nil =>
    intro results s r h
    obtain rfl := Except.ok.inj h
    rfl
  | cons id ids ih =>
    intro results s r h
    unfold evalOperators at h
    obtain ⟨op, hop, h⟩ := Pass.except_bind_eq_ok.mp h
    obtain ⟨inputs, -, h⟩ := Pass.except_bind_eq_ok.mp h
    have hop := Plan.operator_eq_ok.mp (ofResult_eq_ok.mp hop)
    cases heval : evalOperation P id op.operation inputs s with
    | error e => simp [heval] at h
    | ok made =>
      rw [heval] at h
      rw [ih h, evalOperation_unwritten (hw id op hop) heval]

theorem runJob_unwritten {jobs : List Job} (hw : P.plan.Unwritten location)
    (hlocation : stage.location ≠ location) :
    (runJob P jobs stage s).2.get? location = s.get? location := by
  cases hblocker : blocker? jobs stage with
  | some job => rw [(runJob_of_blocked hblocker).2]
  | none =>
    rw [runJob_of_free hblocker]
    cases hrun : runStage P stage s with
    | error e => exact Storage.get?_erase hlocation
    | ok r =>
      unfold runStage at hrun
      obtain ⟨⟨results, s'⟩, heval, hrun⟩ := Pass.except_bind_eq_ok.mp hrun
      have hkept := evalOperators_unwritten hw heval
      dsimp only at hrun
      split at hrun
      · obtain rfl := Except.ok.inj hrun
        exact hkept
      · cases hrun

/-- In every stage, and behind the last one, a location that no store of the plan writes to holds
what it held before the run. -/
theorem found_in_stage (h : Prepared.ofPlan p = .ok P) (hw : p.Unwritten location) (s : Storage) :
    ∀ i ≤ P.stages.length, (before P s i).2.get? location = s.get? location := by
  intro i
  induction i with
  | zero => exact fun _ => rfl
  | succ i ih =>
    intro hi
    have hget := List.getElem?_eq_getElem hi
    have hne := Prepared.location_ne_of_unwritten h hw P.stages[i] (List.getElem_mem hi)
    rw [before_succ hget, runJob_unwritten (hw.alike (Prepared.alike_of_ofPlan h)) hne,
      ih (Nat.le_of_succ_le hi)]

end Engine

end

end Dataflow

import Dataflow.Proofs.Command.Files
import Dataflow.Proofs.Command.Inputs
import Dataflow.Proofs.Plan.Requests

/-!
# Outputs of the run command

With an output directory, each completed job writes a file that is named after its location. The
name keeps letters, digits, points and hyphens only, so that two locations have one name if they
differ in nothing else (`Command.outputName_eq_iff`), and then the later job writes over the file of
the earlier one. After the run the file of each completed job that no later one is named like holds
its records (`Command.outputs_held`).
-/

namespace Dataflow

namespace Command

open Location (IsName)

/-! ## Names of files -/

/-- Characters of a location that are kept in the name of its file. -/
def isKept (c : Char) : Bool := c.isAlphanum || c == '.' || c == '-'

/-- A character as it stands in the name of a file. -/
def safe (c : Char) : Char := if isKept c then c else '_'

/-- What the name of a file is made of. -/
def telling (location : String) : List Char := location.toList.dropWhile fun c => !isKept c

/-- From the first kept character on, the locations differ in characters that are not kept. -/
def Alike (location other : String) : Prop :=
  List.Forall₂ (fun c d => c = d ∨ isKept c = false ∧ isKept d = false)
    (telling location) (telling other)

variable {c d : Char} {location other : String}

theorem ne_of_isKept (hc : isKept c = true) (hd : isKept d = false) : c ≠ d := by
  rintro rfl
  exact Bool.false_ne_true (hd.symm.trans hc)

theorem safe_eq_safe_iff : safe c = safe d ↔ c = d ∨ isKept c = false ∧ isKept d = false := by
  have hmark : isKept '_' = false := by decide
  cases hc : isKept c with
  | false =>
    cases hd : isKept d with
    | false => simp [safe, hc, hd]
    | true => simp [safe, hc, hd, (ne_of_isKept hd hmark).symm, (ne_of_isKept hd hc).symm]
  | true =>
    cases hd : isKept d with
    | false => simp [safe, hc, hd, ne_of_isKept hc hmark, ne_of_isKept hc hd]
    | true => simp [safe, hc, hd]

/-- The underscores that are dropped are those of characters that are not kept. -/
theorem safe_beq_underscore (c : Char) : (safe c == '_') = !isKept c := by
  cases h : isKept c with
  | false => simp [safe, h]
  | true => simpa [safe, h] using ne_of_isKept h (by decide)

theorem outputName_eq (location : String) :
    outputName location = String.ofList ((telling location).map safe) ++ ".jsonl" := by
  show String.ofList ((location.toList.map safe).dropWhile (· == '_')) ++ ".jsonl" = _
  rw [List.dropWhile_map, telling]
  congr 4
  exact funext safe_beq_underscore

/-- Files of two locations have the same name if and only if the locations are alike. -/
theorem outputName_eq_iff : outputName location = outputName other ↔ Alike location other := by
  rw [outputName_eq, outputName_eq, String.append_left_inj, String.ofList_inj, Alike]
  simp only [← safe_eq_safe_iff]
  rw [← List.forall₂_eq_eq_eq, List.forall₂_map_left_iff, List.forall₂_map_right_iff]

instance : Decidable (Alike location other) := decidable_of_iff _ outputName_eq_iff

example : Alike "/out/a" "/out_a" ∧ Alike "/é" "/ä/" ∧ ¬Alike "/out/a" "/out/b" := by
  decide +kernel

theorem isName_outputName (location : String) : IsName (outputName location).toList := by
  have hname : (outputName location).toList = (telling location).map safe ++ ".jsonl".toList := by
    rw [outputName_eq, String.toList_append, String.toList_ofList]
  have hlong : 2 < (outputName location).toList.length := by
    rw [hname, List.length_append]
    exact Nat.lt_of_lt_of_le (by decide : 2 < ".jsonl".toList.length) (Nat.le_add_left _ _)
  have hslash : '/' ∉ (outputName location).toList := by
    rw [hname, List.mem_append, List.mem_map, not_or]
    refine ⟨?_, by decide⟩
    rintro ⟨c, -, hc⟩
    unfold safe at hc
    split_ifs at hc with hkept
    · exact ne_of_isKept hkept (by decide : isKept '/' = false) hc
    · exact absurd hc (by decide)
  refine ⟨?_, ?_, ?_, hslash⟩
  all_goals
    intro heq
    rw [heq] at hlong
    exact absurd hlong (by decide)

/-- A path from the root all of whose names consist of characters that are kept. -/
def IsKeptPath (location : String) : Prop :=
  location.toList = '/' :: telling location ∧ ∀ c ∈ telling location, isKept c = true ∨ c = '/'

instance : Decidable (IsKeptPath location) :=
  @instDecidableAnd _ _ inferInstance (List.decidableBAll _ _)

/-- The files of two such paths have different names. -/
theorem eq_of_alike (h : IsKeptPath location) (h' : IsKeptPath other)
    (halike : Alike location other) : location = other := by
  obtain ⟨hlocation, hkept⟩ := h
  obtain ⟨hother, hkept'⟩ := h'
  rw [← String.toList_inj, hlocation, hother, List.cons_inj_right]
  clear hlocation hother
  unfold Alike at halike
  generalize telling location = s at *
  generalize telling other = t at *
  induction halike with
  | nil => rfl
  | cons hcd _ ih =>
    obtain ⟨hc, hkept⟩ := List.forall_mem_cons.mp hkept
    obtain ⟨hd, hkept'⟩ := List.forall_mem_cons.mp hkept'
    rw [ih hkept hkept']
    rcases hcd with rfl | ⟨hc', hd'⟩
    · rfl
    · -- both are slashes, the only ones that are not kept
      rw [hc.resolve_left (by simp [hc']), hd.resolve_left (by simp [hd'])]

end Command

/-! ## Telling about jobs -/

/-- What the file of a location in the output directory holds. -/
def Desk.output (d : Desk) (parent location : String) : Except FileFault String :=
  d.tree.read d.directory (FileTree.pathIn parent (Command.outputName location))

namespace Command

variable {d d' d'' : Desk} {parent location : String} {job : Job} {jobs told : List Job}
  {r : Except CommandError Unit}

/-- None of the jobs wrote over the file of the location. -/
def Spares (jobs : List Job) (location : String) : Prop :=
  ∀ other ∈ jobs, other.isCompleted = true → ¬Alike location other.location

/-- The completed jobs among those told about wrote their files, one after the other. -/
structure Written (parent : String) (told : List Job) (d d' : Desk) : Prop where
  /-- The file of a job that no later one wrote over holds its records. -/
  held : ∀ before job behind, told = before ++ job :: behind → job.isCompleted = true →
    Spares behind job.location → d'.output parent job.location = .ok (Records.toLines job.records)
  /-- Files that none of the jobs wrote over hold what they held. -/
  kept : ∀ location text, Spares told location → d.output parent location = .ok text →
    d'.output parent location = .ok text

theorem Written.nil (htree : d'.tree = d.tree) (hdirectory : d'.directory = d.directory) :
    Written parent [] d d' where
  held _ _ _ h := by simp at h
  kept _ _ _ h := by rwa [Desk.output, htree, hdirectory]

theorem Written.cons (hjob : Written parent [job] d d') (h : Written parent told d' d'') :
    Written parent (job :: told) d d'' where
  held before other behind heq hdone hspares := by
    cases before with
    | nil =>
      -- the first job's file is there when the others begin, and they spare it
      obtain ⟨rfl, rfl⟩ := List.cons.inj heq
      exact h.kept _ _ hspares (hjob.held [] _ [] rfl hdone (by simp [Spares]))
    | cons first before =>
      obtain ⟨-, rfl⟩ := List.cons.inj heq
      exact h.held before other behind rfl hdone hspares
  kept location text hspares hread := by
    obtain ⟨hfirst, hspares⟩ := List.forall_mem_cons.mp hspares
    exact h.kept location text hspares
      (hjob.kept location text (by simpa [Spares] using hfirst) hread)

/-- The job is completed, and its file cannot be written. -/
def Refused (parent : String) (job : Job) (d : Desk) (fault : FileFault) : Prop :=
  job.isCompleted = true ∧ d.tree.write d.directory parent (outputName job.location)
    (Records.toLines job.records) = .error fault

/-- What is told about a job, and what is written. -/
theorem onDesk_tellJob : onDesk (tellJob (some parent) job) d =
    if job.isCompleted then
      match d.tree.write d.directory parent (outputName job.location)
          (Records.toLines job.records) with
      | .ok tree => (.ok (), { d with errors := d.errors ++ job.text, tree })
      | .error fault => (.error (.file fault), { d with errors := d.errors ++ job.text })
    else (.ok (), { d with errors := d.errors ++ job.text }) := by
  unfold tellJob
  rw [onDesk_bind_of_ok onDesk_tellError]
  split_ifs
  · rw [onDesk_bind, onDesk_writeFile]
    cases d.tree.write d.directory parent (outputName job.location) (Records.toLines job.records)
    · rfl
    · rfl
  · rfl

/-- A completed job that is told about writes its file, unless that cannot be written. -/
theorem written_of_tellJob (h : onDesk (tellJob (some parent) job) d = (r, d')) :
    r = .ok () ∧ Written parent [job] d d' ∨
      ∃ fault, Refused parent job d' fault ∧ r = .error (.file fault) ∧ Written parent [] d d' := by
  rw [onDesk_tellJob] at h
  split_ifs at h with hdone
  · split at h
    · next tree hwrite =>
      obtain ⟨rfl, rfl⟩ := Prod.mk.inj h
      -- its own file is read back, and a file that it spares has another name
      refine .inl ⟨rfl, fun before other behind heq _ _ => ?_,
        fun location text hspares hread => ?_⟩
      · -- the only job told about is this one
        obtain ⟨-, hother⟩ : before = [] ∧ other = job := by
          cases before with
          | nil => exact ⟨rfl, (List.cons.inj heq).1.symm⟩
          | cons first before => simp at heq
        subst hother
        exact FileTree.read_write (isName_outputName _) hwrite
      · have hne : outputName location ≠ outputName job.location := fun heq =>
          hspares job List.mem_cons_self hdone (outputName_eq_iff.mp heq)
        exact FileTree.read_write_of_ne (isName_outputName _) (isName_outputName _) hne hwrite hread
    · next fault hwrite =>
      obtain ⟨rfl, rfl⟩ := Prod.mk.inj h
      exact .inr ⟨fault, ⟨hdone, hwrite⟩, rfl, .nil rfl rfl⟩
  · obtain ⟨rfl, rfl⟩ := Prod.mk.inj h
    refine .inl ⟨rfl, fun before other behind heq hother _ => ?_, fun _ _ _ hread => hread⟩
    have hmem : other ∈ [job] := heq ▸ by simp
    obtain rfl := List.mem_singleton.mp hmem
    exact absurd hother hdone

/-- Jobs are told about until the file of a completed one cannot be written. -/
theorem written_of_tellJobs (h : onDesk (jobs.forM (tellJob (some parent))) d = (r, d')) :
    ∃ told rest, jobs = told ++ rest ∧ Written parent told d d' ∧
      (rest = [] ∧ r = .ok () ∨ ∃ job behind fault, rest = job :: behind ∧
        Refused parent job d' fault ∧ r = .error (.file fault)) := by
  induction jobs generalizing d with
  | nil =>
    obtain ⟨rfl, rfl⟩ := Prod.mk.inj h
    exact ⟨[], [], rfl, .nil rfl rfl, .inl ⟨rfl, rfl⟩⟩
  | cons job jobs ih =>
    change onDesk (tellJob (some parent) job >>= fun _ => jobs.forM (tellJob (some parent))) d =
      _ at h
    rw [onDesk_bind] at h
    -- the first job leads to the desk on which the others are told about, or it is the last one
    cases hjob : onDesk (tellJob (some parent) job) d with
    | mk first d₁ =>
      rw [hjob] at h
      rcases written_of_tellJob hjob with ⟨rfl, hfirst⟩ | ⟨fault, hrefused, rfl, hnone⟩
      · obtain ⟨told, rest, rfl, htold, hend⟩ := ih h
        exact ⟨job :: told, rest, rfl, hfirst.cons htold, hend⟩
      · obtain ⟨rfl, rfl⟩ := Prod.mk.inj h
        exact ⟨[], job :: jobs, rfl, hnone, .inr ⟨job, jobs, fault, rfl, hrefused, rfl⟩⟩

/-! ## The run -/

theorem map_location_execute (P : Prepared) (storage : Storage) :
    (Engine.execute P storage).1.map Job.location = P.stages.map Stage.location := by
  have hall : ∀ (stages : List Stage) (jobs : List Job) (s : Storage),
      (Engine.runStages P stages jobs s).1.map Job.location =
        jobs.map Job.location ++ stages.map Stage.location := by
    intro stages
    induction stages with
    | nil => simp [Engine.runStages]
    | cons stage stages ih =>
      intro jobs s
      have hjob : (Engine.runJob P jobs stage s).1.location = stage.location := by
        unfold Engine.runJob
        split
        · rfl
        · split
          · rfl
          · rfl
      simp [Engine.runStages, ih, hjob]
  exact hall P.stages [] storage

variable {s : Session} {inputs : List Binding} {storage : Storage} {P : Prepared}

/-- What becomes of a run that told about all of its jobs. -/
def outcome (jobs : List Job) : Except CommandError Unit :=
  let unfinished := jobs.filter (!·.isCompleted)
  if unfinished.isEmpty then .ok () else .error (.incomplete unfinished.length jobs.length)

theorem onDesk_outcome (jobs : List Job) : onDesk (do
    let unfinished := jobs.filter (!·.isCompleted)
    unless unfinished.isEmpty do throw (.incomplete unfinished.length jobs.length)
      : Act (StateM Desk) Unit) d = (outcome jobs, d) := by
  simp only [outcome]
  split_ifs
  · rfl
  · rfl

theorem onDesk_runPlan (hload : onDesk (loadInputs d.here inputs {}) d = (.ok storage, d))
    (hP : Prepared.ofPlan s.plan = .ok P) :
    onDesk (runPlan s inputs (some parent)) d =
      match onDesk ((Engine.execute P storage).1.forM (tellJob (some parent))) d with
      | (.ok (), d') => (outcome (Engine.execute P storage).1, d')
      | (.error e, d') => (.error e, d') := by
  rw [onDesk_runPlan_of_loaded hload]
  have hprepared : onDesk (ofRunResult (Prepared.ofPlan s.plan)) d = (.ok P, d) := by
    rw [onDesk_ofRunResult, hP]
    rfl
  unfold finish
  rw [onDesk_bind_of_ok hprepared]
  show onDesk ((Engine.execute P storage).1.forM (tellJob (some parent)) >>= _) d = _
  rw [onDesk_bind]
  rcases onDesk ((Engine.execute P storage).1.forM (tellJob (some parent))) d with ⟨e | ⟨⟩, d'⟩
  · rfl
  · exact onDesk_outcome _

/-- The files of two locations have the same name if and only if the locations are alike. A run of a
plan, which is how the run command ends that got ready with it, tells about its jobs, of which each
stands for the stage of a store, and it stops early only where the file of a completed job cannot be
written. Of those told about, each completed one has its records in its file, unless a later
completed one has an alike location. -/
theorem outputs_held {r : Except CommandError Unit}
    (hload : onDesk (loadInputs d.here inputs {}) d = (.ok storage, d))
    (hP : Prepared.ofPlan s.plan = .ok P)
    (h : onDesk (runPlan s inputs (some parent)) d = (r, d')) :
    (∀ location other, outputName location = outputName other ↔ Alike location other) ∧
    (∀ path asWritten settings d₀,
      onDesk (ready path inputs asWritten settings) d₀ = (.ok (s, storage), d) →
        onDesk (act (.run path inputs asWritten (some parent) settings)) d₀ = (r, d')) ∧
    (Engine.execute P storage).1.map Job.location = P.stages.map Stage.location ∧
    ∃ told rest, (Engine.execute P storage).1 = told ++ rest ∧
      (rest = [] ∧ r = outcome told ∨ ∃ job behind fault, rest = job :: behind ∧
        Refused parent job d' fault ∧ r = .error (.file fault)) ∧
      ∀ before job behind, told = before ++ job :: behind → job.isCompleted = true →
        (∀ other ∈ behind, other.isCompleted = true → ¬Alike job.location other.location) →
          d'.output parent job.location = .ok (Records.toLines job.records) := by
  refine ⟨fun _ _ => outputName_eq_iff, fun path asWritten settings d₀ hready => ?_,
    map_location_execute P storage, ?_⟩
  · rw [onDesk_act_run hready, ← onDesk_runPlan_of_loaded hload, h]
  rw [onDesk_runPlan hload hP] at h
  cases hjobs : onDesk ((Engine.execute P storage).1.forM (tellJob (some parent))) d with
  | mk result d₁ =>
    obtain ⟨told, rest, heq, hwritten, hend⟩ := written_of_tellJobs hjobs
    rw [hjobs] at h
    refine ⟨told, rest, heq, ?_⟩
    rcases hend with ⟨rfl, rfl⟩ | ⟨job, behind, fault, rfl, hrefused, rfl⟩
    · obtain ⟨rfl, rfl⟩ := Prod.mk.inj h
      rw [List.append_nil] at heq
      exact ⟨.inl ⟨rfl, by rw [heq]⟩, hwritten.held⟩
    · obtain ⟨rfl, rfl⟩ := Prod.mk.inj h
      exact ⟨.inr ⟨job, behind, fault, rfl, hrefused, rfl⟩, hwritten.held⟩

/-! ## Two stores -/

open Plan (append made) in
/-- A session with a plan that stores all rows at one place and the first row at another. -/
def twoStores (whole first : String) : Session where
  draft := { plan := made do
    let load ← append { operation := .load { location := "/in" } } []
    let limit ← append { operation := .limit 1 } [load]
    let _ ← append { operation := .store whole } [load]
    append { operation := .store first } [limit] }
  directory := "/tmp/desk"

def rowsDesk : Desk := .holding [("rows.jsonl", "[1]\n[2]\n")] fun _ => none

def rowsInput : List Binding := [⟨"/in", "rows.jsonl"⟩]

/-- The run succeeds with two completed jobs at the places, for which the test holds. -/
def runsTwo (whole first : String) (test : Desk → Job → Job → Bool) : Bool :=
  match onDesk (loadInputs rowsDesk.here rowsInput {}) rowsDesk,
      Prepared.ofPlan (twoStores whole first).plan,
      onDesk (runPlan (twoStores whole first) rowsInput (some "out")) rowsDesk with
  | (.ok storage, _), .ok P, (.ok (), d') =>
    match (Engine.execute P storage).1 with
    | [a, b] => a.isCompleted && b.isCompleted && a.location == whole && b.location == first &&
        test d' a b
    | _ => false
  | _, _, _ => false

theorem exists_runsTwo (whole first : String) (test : Desk → Job → Job → Bool)
    (h : runsTwo whole first test = true) : ∃ storage P d' a b,
    onDesk (loadInputs rowsDesk.here rowsInput {}) rowsDesk = (.ok storage, rowsDesk) ∧
    Prepared.ofPlan (twoStores whole first).plan = .ok P ∧
    onDesk (runPlan (twoStores whole first) rowsInput (some "out")) rowsDesk = (.ok (), d') ∧
    (Engine.execute P storage).1 = [a, b] ∧ a.isCompleted = true ∧ b.isCompleted = true ∧
    a.location = whole ∧ b.location = first ∧ test d' a b = true := by
  unfold runsTwo at h
  split at h
  · next storage d₁ P d' hload hP hrun =>
    obtain ⟨rfl, -⟩ := loadInputs_spec hload
    split at h
    · next a b hjobs =>
      simp only [Bool.and_eq_true, beq_iff_eq] at h
      obtain ⟨⟨⟨⟨ha, hb⟩, hwhole⟩, hfirst⟩, htest⟩ := h
      exact ⟨storage, P, d', a, b, hload, hP, hrun, hjobs, ha, hb, hwhole, hfirst, htest⟩
    · cases h
  · cases h

/-- Both files are there if the locations are paths of kept characters. -/
theorem both_held : ∃ storage P d' a b,
    onDesk (loadInputs rowsDesk.here rowsInput {}) rowsDesk = (.ok storage, rowsDesk) ∧
    Prepared.ofPlan (twoStores "/out/a" "/out/b").plan = .ok P ∧
    onDesk (runPlan (twoStores "/out/a" "/out/b") rowsInput (some "out")) rowsDesk = (.ok (), d') ∧
    (Engine.execute P storage).1 = [a, b] ∧ a.isCompleted = true ∧ b.isCompleted = true ∧
    d'.output "out" a.location = .ok (Records.toLines a.records) ∧
    d'.output "out" b.location = .ok (Records.toLines b.records) := by
  obtain ⟨storage, P, d', a, b, hload, hP, hrun, hjobs, ha, hb, hwhole, hfirst, -⟩ :=
    exists_runsTwo "/out/a" "/out/b" (fun _ _ _ => true) (by decide +kernel)
  refine ⟨storage, P, d', a, b, hload, hP, hrun, hjobs, ha, hb, ?_⟩
  obtain ⟨-, -, -, told, rest, heq, hend, hheld⟩ := outputs_held hload hP hrun
  obtain ⟨rfl, -⟩ : rest = [] ∧ _ := hend.resolve_right (by rintro ⟨_, _, _, -, -, h⟩; cases h)
  rw [List.append_nil, hjobs] at heq
  constructor
  · refine hheld [] a [b] heq.symm ha ?_
    rintro other hother -
    rw [List.mem_singleton.mp hother, hwhole, hfirst]
    intro halike
    have heq := eq_of_alike (by decide +kernel) (by decide +kernel) halike
    exact absurd heq (by decide)
  · exact hheld [a] b [] heq.symm hb (by simp)

/-- The first row is written over the whole if the locations differ in a character that is
replaced. -/
theorem not_all_held : ¬∀ (s : Session) (inputs : List Binding) (parent : String) (d d' : Desk)
    (storage : Storage) (P : Prepared),
    onDesk (loadInputs d.here inputs {}) d = (.ok storage, d) →
    Prepared.ofPlan s.plan = .ok P → (P.stages.map Stage.location).Nodup →
    onDesk (runPlan s inputs (some parent)) d = (.ok (), d') →
      ((Engine.execute P storage).1.filter Job.isCompleted).Pairwise (fun job other =>
        outputName job.location ≠ outputName other.location) ∧
      ∀ job ∈ (Engine.execute P storage).1, job.isCompleted = true →
        d'.output parent job.location = .ok (Records.toLines job.records) := by
  intro hall
  obtain ⟨storage, P, d', a, b, hload, hP, hrun, hjobs, ha, hb, hwhole, hfirst, hlost⟩ :=
    exists_runsTwo "/out/a" "/out_a"
      (fun d' a _ => decide (d'.output "out" a.location ≠ .ok (Records.toLines a.records)))
      (by decide +kernel)
  have hapart : (P.stages.map Stage.location).Nodup := by
    rw [← map_location_execute P storage, hjobs]
    show [a.location, b.location].Nodup
    rw [hwhole, hfirst]
    decide
  obtain ⟨-, hheld⟩ := hall _ _ _ _ _ _ _ hload hP hapart hrun
  exact of_decide_eq_true hlost (hheld a (by simp [hjobs]) ha)

end Command

end Dataflow

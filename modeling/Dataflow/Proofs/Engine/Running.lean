import Dataflow.Proofs.Engine.Stages

/-!
# Running prepared plans

A stage that is run stores the rows that its store means, unless an operator of it fails on the rows
that its inputs mean; then the stage fails in such an operator (`runStage_spec`). When no load reads
what a store writes, this is so for all stages alike: what one of them writes matters to no other
one (`execute_spec`).
-/

namespace Dataflow

open Dataflow.Graph Plan Engine

variable {p : Plan} {P : Prepared} {s s' : Storage} {d : NodeId → Meaning} {x y z t : NodeId}
  {op : Operator} {stage : Stage} {results : Results} {done : List NodeId}

/-- The operator does not fail on the rows that its inputs mean. -/
def Plan.SucceedsAt (s : Storage) (p : Plan) (d : NodeId → Meaning) (z : NodeId) : Prop :=
  ∀ op, p.core? z = some op → op.operation.Succeeds s ((p.dataInputs z).map d)

theorem Plan.succeedsAt_iff (hop : p.operator? z = some op) :
    SucceedsAt s p d z ↔ op.operation.Succeeds s ((p.dataInputs z).map d) := by
  unfold SucceedsAt core?
  rw [hop]
  simp

theorem Plan.SucceedsAt.alike {q : Plan} (h : Alike p q) :
    SucceedsAt s q d z ↔ SucceedsAt s p d z := by
  unfold SucceedsAt
  rw [h.core?, h.dataInputs]

namespace Engine

/-! ## Operators in turn -/

/-- The results hold the rows that the listed operators mean. -/
def Holds (d : NodeId → Meaning) (results : Results) (done : List NodeId) : Prop :=
  ∀ x ∈ done, results.lookup x = some (d x).rows

theorem Holds.cons (h : Holds d results done) :
    Holds d ((z, (d z).rows) :: results) (done ++ [z]) := by
  intro x hx
  by_cases hxz : x = z
  · simp [hxz]
  · have hx : x ∈ done := by simpa [hxz] using hx
    rw [List.lookup_cons, beq_eq_false_iff_ne.mpr hxz]
    exact h x hx

theorem Holds.inputRows (h : Holds d results done) : ∀ {l : List NodeId}, (∀ x ∈ l, x ∈ done) →
    inputRows results z l = .ok ((l.map d).map Meaning.rows)
  | [], _ => rfl
  | x :: l, hl => by
    obtain ⟨hx, hl⟩ := List.forall_mem_cons.mp hl
    unfold Engine.inputRows
    rw [h x hx]
    simp only [h.inputRows hl, Pass.except_ok_bind, Pass.except_pure, List.map_cons]

/-- Evaluating an operator, given the rows of its inputs, fails or ends with the rows that it
means. -/
theorem evalOperation_of_prepares (hp : p.Sound) (hP : Prepares p P) (hd : Solves s p d)
    (hop : P.plan.operator? z = some op) {made : Relation} :
    evalOperation P z op.operation (((P.plan.dataInputs z).map d).map Meaning.rows) s =
        .ok (made, s') ↔
      SucceedsAt s p d z ∧ made = (d z).rows ∧ s' = op.operation.written s made := by
  have hq := hp.extends hP.derived
  have hvq := hP.derived.alike.valid hP.valid
  have hdq := hd.alike hP.derived.alike
  have hinputs : op.type ≠ .load → P.plan.dataInputs z = P.plan.graph.predecessors z := fun h => by
    rw [dataInputs_of_operator? hop, if_neg h]
  rw [evalOperation_eq_ok, ← SucceedsAt.alike hP.derived.alike, succeedsAt_iff hop,
    hdq.operator hop]
  · rfl
  · intro hload hnil
    exact hvq.dataInputs_ne_nil hop hload (List.map_eq_nil_iff.mp hnil)
  · intro t keys hjoin
    rw [hinputs (by simp [Operator.type, hjoin, Operation.type]), List.map_map]
    refine List.map_congr_left fun x hx => ?_
    have hcx : p.graph.contains x = true := by
      rw [← hP.derived.alike.contains]
      exact hq.wellFormed.source hx
    obtain ⟨t', ht'⟩ := Option.isSome_iff_exists.mp (hP.known x hcx)
    have hlayout := (hdq.layout_of_memo hq.wellFormed hvq.acyclic hq.coherent ht').1
    rw [hP.width x hcx, ht', Function.comp_apply, Meaning.width?, hlayout]
    cases t' <;> simp

/-- What happens at the first operator: it fails, or its rows are kept for those behind it. -/
theorem evalOperators_cons {results : Results} {rels : List Relation} {l : List NodeId}
    (hop : P.plan.operator? z = some op)
    (hin : inputRows results z (P.plan.dataInputs z) = .ok rels) :
    (∀ cause, evalOperation P z op.operation rels s = .error cause →
      evalOperators P (z :: l) results s = .error (.inOperator op.describe cause)) ∧
    ∀ r, evalOperation P z op.operation rels s = .ok r →
      evalOperators P (z :: l) results s = evalOperators P l ((z, r.1) :: results) r.2 := by
  have hop' : RunResult.ofResult (P.plan.operator z) = .ok op := by
    rw [operator_eq_ok.mpr hop]
    rfl
  refine ⟨fun cause heval => ?_, fun r heval => ?_⟩
  · rw [evalOperators, hop', Pass.except_ok_bind, hin, Pass.except_ok_bind, heval]
    rfl
  · rw [evalOperators, hop', Pass.except_ok_bind, hin, Pass.except_ok_bind, heval]

/-- Evaluating operators other than stores, each behind its inputs, ends with what they mean, unless
one of them fails. -/
theorem evalOperators_spec (hp : p.Sound) (hP : Prepares p P) (hd : Solves s p d) :
    ∀ {l done : List NodeId} {results : Results}, Holds d results done →
      (∀ z ∈ l, p.graph.contains z = true ∧ ¬p.HasType z .store) →
      (∀ before z behind, l = before ++ z :: behind →
        ∀ y ∈ p.dataInputs z, y ∈ done ++ before) →
      ((∀ z ∈ l, SucceedsAt s p d z) ∧ ∃ results', Holds d results' (done ++ l) ∧
        ∀ rest, evalOperators P (l ++ rest) results s = evalOperators P rest results' s) ∨
      ∃ z ∈ l, ∃ op cause, p.core? z = some op ∧ ¬SucceedsAt s p d z ∧
        ∀ rest, evalOperators P (l ++ rest) results s = .error (.inOperator op.describe cause)
  | [], done, results, hr, _, _ => .inl ⟨by simp, results, by simpa using hr, fun _ => rfl⟩
  | z :: l, done, results, hr, hl, hord => by
    obtain ⟨⟨hcz, hstore⟩, hl'⟩ := List.forall_mem_cons.mp hl
    obtain ⟨op, hop⟩ := exists_operator? (show P.plan.graph.contains z = true by
      rw [hP.derived.alike.contains]; exact hcz)
    have hcore : p.core? z = some op.core := by
      rw [← hP.derived.alike.core?, core?, hop]
      rfl
    have hz : ∀ y ∈ P.plan.dataInputs z, y ∈ done := fun y hy => by
      rw [hP.derived.alike.dataInputs] at hy
      simpa using hord [] z l rfl y hy
    have hrun := fun rest => evalOperators_cons (s := s) (l := l ++ rest) hop (hr.inputRows hz)
    cases heval : evalOperation P z op.operation
        (((P.plan.dataInputs z).map d).map Meaning.rows) s with
    | error cause =>
      refine .inr ⟨z, by simp, op.core, cause, hcore, fun hsucc => ?_, fun rest => ?_⟩
      · have := (evalOperation_of_prepares hp hP hd hop).mpr ⟨hsucc, rfl, rfl⟩
        rw [heval] at this
        simp at this
      · rw [List.cons_append, (hrun rest).1 cause heval, Operator.describe_core]
    | ok r =>
      obtain ⟨hsucc, hmade, hs⟩ := (evalOperation_of_prepares hp hP hd hop).mp heval
      have hs : r.2 = s := by
        rw [hs]
        cases ho : op.operation with
        | store location =>
          refine absurd ?_ hstore
          exact hP.derived.alike.hasType ⟨op, hop, by simp [Operator.type, ho, Operation.type]⟩
        | _ => rfl
      have hnext : Holds d ((z, r.1) :: results) (done ++ [z]) := hmade ▸ hr.cons
      rcases evalOperators_spec hp hP hd hnext hl' (fun before y behind heq w hw => by
        have := hord (z :: before) y behind (by rw [heq]; rfl) w hw
        simpa using this) with ⟨hall, results', hr', hrest⟩ | ⟨y, hy, opy, cause, hcy, hno, hrest⟩
      · refine .inl ⟨List.forall_mem_cons.mpr ⟨hsucc, hall⟩, results', by simpa using hr',
          fun rest => ?_⟩
        rw [List.cons_append, (hrun rest).2 r heval, hs]
        exact hrest rest
      · refine .inr ⟨y, by simp [hy], opy, cause, hcy, hno, fun rest => ?_⟩
        rw [List.cons_append, (hrun rest).2 r heval, hs]
        exact hrest rest

/-! ## Stages -/

/-- What becomes of a stage that is run. -/
theorem runStage_spec (hp : p.Sound) (hP : Prepares p P) (hd : Solves s p d)
    (hstage : IsStage p stage) :
    match runStage P stage s with
    | .ok (rows, s') => (∀ z ∈ stage.operators, SucceedsAt s p d z) ∧
        rows = (d stage.store).rows ∧ s' = s.insert stage.location rows
    | .error e => ∃ z ∈ stage.operators, ∃ op cause, p.core? z = some op ∧
        ¬SucceedsAt s p d z ∧ e = .inOperator op.describe cause := by
  obtain ⟨before, heq, -, hmem⟩ := hstage.operators
  obtain ⟨name, hcore⟩ := hstage.store
  have hstore : p.HasType stage.store .store := hasType_iff_core?.mpr ⟨_, hcore, rfl⟩
  have hord : ∀ front z back, before = front ++ z :: back → ∀ y ∈ p.dataInputs z, y ∈ [] ++ front :=
    fun front z back h y hy =>
      hstage.ordered front z (back ++ [stage.store]) (by rw [heq, h]; simp) y hy
  have hinputs : ∀ y ∈ p.dataInputs stage.store, y ∈ before := fun y hy =>
    hstage.ordered before stage.store [] heq y hy
  unfold runStage
  rw [heq]
  have hstart : Holds d [] [] := by intro x hx; simp at hx
  rcases evalOperators_spec hp hP hd hstart
    (fun z hz => by
      obtain ⟨hcz, hfeeds, hne⟩ := (hmem z).mp hz
      exact ⟨hcz, hfeeds.not_store hne hp.wellFormed hP.valid⟩) hord with
    ⟨hall, results, hr, hrest⟩ | ⟨z, hz, op, cause, hcz, hno, hrest⟩
  · -- only the store is left
    obtain ⟨op, hop⟩ := exists_operator? (show P.plan.graph.contains stage.store = true by
      rw [hP.derived.alike.contains]; exact hstore.contains)
    have hcop : op.core = { name, operation := .store stage.location } := by
      have : P.plan.core? stage.store = p.core? stage.store := hP.derived.alike.core?
      rw [hcore, core?, hop] at this
      exact Option.some.inj this
    have ho : op.operation = .store stage.location :=
      Operation.withoutUids_eq_store.mp (congrArg Operator.operation hcop)
    rw [hrest, evalOperators, operator_eq_ok.mpr hop, hr.inputRows (by
      simpa only [hP.derived.alike.dataInputs, List.nil_append] using hinputs)]
    simp only [RunResult.ofResult, Pass.except_ok_bind, evalOperators]
    cases heval : evalOperation P stage.store op.operation
        (((P.plan.dataInputs stage.store).map d).map Meaning.rows) s with
    | error cause =>
      refine ⟨stage.store, by simp, op.core, cause, by rw [hcop]; exact hcore, fun hsucc => ?_, ?_⟩
      · have := (evalOperation_of_prepares hp hP hd hop).mpr ⟨hsucc, rfl, rfl⟩
        rw [heval] at this
        simp at this
      · rw [Operator.describe_core]
    | ok r =>
      obtain ⟨hsucc, hmade, hs⟩ := (evalOperation_of_prepares hp hP hd hop).mp heval
      simp only [Pass.except_ok_bind, List.lookup_cons_self, Pass.except_pure]
      refine ⟨fun z hz => ?_, hmade, ?_⟩
      · rcases List.mem_append.mp hz with hz | hz
        · exact hall z hz
        · rw [List.mem_singleton.mp hz]; exact hsucc
      · rw [hs, ho]
        rfl
  · rw [hrest]
    exact ⟨z, by simp [hz], op, cause, hcz, hno, rfl⟩

/-- A stage ends with the rows of its store exactly if none of its operators fails. -/
theorem runStage_eq_ok (hp : p.Sound) (hP : Prepares p P) (hd : Solves s p d)
    (hstage : IsStage p stage) {rows : Relation} : runStage P stage s = .ok (rows, s') ↔
      (∀ z ∈ stage.operators, SucceedsAt s p d z) ∧ rows = (d stage.store).rows ∧
        s' = s.insert stage.location rows := by
  have hspec := runStage_spec hp hP hd hstage
  cases hrun : runStage P stage s with
  | error e =>
    rw [hrun] at hspec
    obtain ⟨z, hz, -, -, -, hno, -⟩ := hspec
    exact ⟨fun h => by simp at h, fun ⟨hall, _⟩ => absurd (hall z hz) hno⟩
  | ok r =>
    rw [hrun] at hspec
    obtain ⟨hall, hrows, hs⟩ := hspec
    constructor
    · intro h
      obtain rfl : r = (rows, s') := Except.ok.inj h
      exact ⟨hall, hrows, hs⟩
    · rintro ⟨-, rfl, rfl⟩
      rw [← hrows, ← hs]

end Engine

/-! ## What loads read -/

namespace Storage

variable {location other : String} {records : List Row}

theorem get?_insert (h : location ≠ other) :
    (s.insert location records).get? other = s.get? other := by
  unfold insert get?
  rw [Std.TreeMap.getElem?_insert, if_neg (by simpa using h)]

theorem get?_erase (h : location ≠ other) : (s.erase location).get? other = s.get? other := by
  unfold erase get?
  rw [Std.TreeMap.getElem?_erase, if_neg (by simpa using h)]

/-- One record of one cell. -/
def oneRecord : Storage := ({} : Storage).insert "/in" [[.int 1]]

end Storage

namespace Plan

/-- The storages have the same records wherever the plan loads from. -/
def ReadsSame (p : Plan) (s s' : Storage) : Prop :=
  ∀ z name l, p.core? z = some { name, operation := .load l } →
    s.get? l.location = s'.get? l.location

/-- No load reads what a store writes. -/
def LoadsApart (p : Plan) : Prop :=
  ∀ x z l location nx nz, p.core? x = some { name := nx, operation := .load l } →
    p.core? z = some { name := nz, operation := .store location } → l.location ≠ location

/-- No two stores write to the same location. -/
def StoresApart (p : Plan) : Prop :=
  ∀ x z location nx nz, p.core? x = some { name := nx, operation := .store location } →
    p.core? z = some { name := nz, operation := .store location } → x = z

theorem ReadsSame.operation (h : p.ReadsSame s s') (hop : p.core? z = some op)
    (ms : List Meaning) : op.operation.meaning s ms = op.operation.meaning s' ms ∧
      (op.operation.Succeeds s ms ↔ op.operation.Succeeds s' ms) := by
  have hmemo : op.memo = none := by
    obtain ⟨op', -, rfl⟩ := Option.map_eq_some_iff.mp hop
    rfl
  exact operation_congr fun l hl => h z op.name l (by rw [hop, ← hl, ← hmemo])

theorem ReadsSame.solves (h : p.ReadsSame s s') (hd : Solves s p d) : Solves s' p d :=
  fun z op hop => (hd z op hop).trans (h.operation hop _).1

theorem ReadsSame.succeedsAt (h : p.ReadsSame s s') :
    SucceedsAt s p d z ↔ SucceedsAt s' p d z :=
  forall₂_congr fun _ hop => (h.operation hop _).2

theorem LoadsApart.insert (h : p.LoadsApart) (hstage : IsStage p stage) (hs : p.ReadsSame s s')
    (rows : Relation) : p.ReadsSame s (s'.insert stage.location rows) := by
  intro z name l hz
  obtain ⟨ns, hstore⟩ := hstage.store
  rw [hs z name l hz, Storage.get?_insert (h z stage.store l _ name ns hz hstore).symm]

theorem LoadsApart.erase (h : p.LoadsApart) (hstage : IsStage p stage) (hs : p.ReadsSame s s') :
    p.ReadsSame s (s'.erase stage.location) := by
  intro z name l hz
  obtain ⟨ns, hstore⟩ := hstage.store
  rw [hs z name l hz, Storage.get?_erase (h z stage.store l _ name ns hz hstore).symm]

end Plan

/-! ## All stages -/

namespace Engine

/-- None of the operators of the stage fails. -/
def StageSucceeds (s : Storage) (p : Plan) (d : NodeId → Meaning) (stage : Stage) : Prop :=
  ∀ z ∈ stage.operators, SucceedsAt s p d z

/-- A job is about a stage: if it is completed, it holds the rows that the store means. -/
structure JobFits (s : Storage) (p : Plan) (d : NodeId → Meaning) (stage : Stage) (job : Job) :
    Prop where
  location : job.location = stage.location
  completed : job.isCompleted = true → job.records = (d stage.store).rows ∧
    StageSucceeds s p d stage

theorem runJob_spec (hp : p.Sound) (hP : Prepares p P) (hd : Solves s p d) (h : p.LoadsApart)
    (hs : p.ReadsSame s s') (hstage : IsStage p stage) (jobs : List Job) :
    JobFits s p d stage (runJob P jobs stage s').1 ∧
      p.ReadsSame s (runJob P jobs stage s').2 ∧
      ((∀ job ∈ jobs, job.isCompleted = true) → StageSucceeds s p d stage →
        (runJob P jobs stage s').1.isCompleted = true) := by
  have hrun := runStage_spec hp hP (hs.solves hd) hstage
  have hsucc : StageSucceeds s p d stage ↔ ∀ z ∈ stage.operators, SucceedsAt s' p d z :=
    forall₂_congr fun _ _ => hs.succeedsAt
  unfold runJob
  cases hblock : blocker? jobs stage with
  | some job =>
    refine ⟨⟨rfl, fun hc => by simp [Job.isCompleted] at hc⟩, hs, fun hall => ?_⟩
    have hmem := List.mem_of_find?_eq_some hblock
    obtain ⟨i, -, hi⟩ := List.mem_filterMap.mp hmem
    have hnot := List.find?_some hblock
    rw [hall job (List.mem_of_getElem? hi)] at hnot
    simp at hnot
  | none =>
    cases hstep : runStage P stage s' with
    | ok r =>
      rw [hstep] at hrun
      obtain ⟨hall, hrows, hst⟩ := hrun
      refine ⟨⟨rfl, fun _ => ⟨hrows, hsucc.mpr hall⟩⟩, ?_, fun _ _ => rfl⟩
      dsimp only
      rw [hst]
      exact h.insert hstage hs _
    | error e =>
      rw [hstep] at hrun
      obtain ⟨z, hz, -, -, -, hno, -⟩ := hrun
      exact ⟨⟨rfl, fun hc => by simp [Job.isCompleted] at hc⟩, h.erase hstage hs,
        fun _ hall => absurd (hsucc.mp hall z hz) hno⟩

theorem runStages_spec (hp : p.Sound) (hP : Prepares p P) (hd : Solves s p d)
    (h : p.LoadsApart) : ∀ {l : List Stage} (jobs : List Job) {s' : Storage},
    p.ReadsSame s s' → (∀ stage ∈ l, IsStage p stage) →
    ∃ new, (runStages P l jobs s').1 = jobs ++ new ∧ List.Forall₂ (JobFits s p d) l new ∧
      ((∀ job ∈ jobs, job.isCompleted = true) → (∀ stage ∈ l, StageSucceeds s p d stage) →
        ∀ job ∈ new, job.isCompleted = true)
  | [], jobs, s', _, _ => ⟨[], by simp [runStages], .nil, by simp⟩
  | stage :: l, jobs, s', hs, hl => by
    obtain ⟨hstage, hl⟩ := List.forall_mem_cons.mp hl
    obtain ⟨hfits, hs', hdone⟩ := runJob_spec hp hP hd h hs hstage jobs
    obtain ⟨new, hnew, hall, hcompleted⟩ := runStages_spec hp hP hd h
      (jobs ++ [(runJob P jobs stage s').1]) hs' hl
    refine ⟨(runJob P jobs stage s').1 :: new, ?_, .cons hfits hall, fun hjobs hsucc => ?_⟩
    · rw [runStages, hnew]
      simp
    · obtain ⟨hfirst, hrest⟩ := List.forall_mem_cons.mp hsucc
      have hjob := hdone hjobs hfirst
      refine List.forall_mem_cons.mpr ⟨hjob, hcompleted (fun job hj => ?_) hrest⟩
      rcases List.mem_append.mp hj with hj | hj
      · exact hjobs job hj
      · rw [List.mem_singleton.mp hj]; exact hjob

/-- When no load reads what a store writes, each job is about a stage, and all of them are completed
exactly if no operator that feeds a store fails. -/
theorem execute_spec (hp : p.Sound) (hP : Prepares p P) (hd : Solves s p d) (h : p.LoadsApart) :
    List.Forall₂ (JobFits s p d) P.stages (execute P s).1 ∧
      ((∀ job ∈ (execute P s).1, job.isCompleted = true) ↔
        ∀ stage ∈ P.stages, StageSucceeds s p d stage) := by
  obtain ⟨new, hnew, hall, hdone⟩ := runStages_spec hp hP hd h []
    (show p.ReadsSame s s from fun _ _ _ _ => rfl) hP.stages
  have hjobs : (execute P s).1 = new := hnew
  rw [hjobs]
  refine ⟨hall, fun hcompleted stage hstage => ?_, hdone (by simp)⟩
  obtain ⟨job, hjob, hfits⟩ := Lists.exists_of_forall₂ hall hstage
  exact (hfits.completed (hcompleted job hjob)).2

/-- The stages of a prepared plan are about all that feeds a store. -/
theorem forall_stageSucceeds (hp : p.Sound) (hP : Prepares p P) :
    (∀ stage ∈ P.stages, StageSucceeds s p d stage) ↔
      ∀ t z, p.HasType t .store → Feeds p t z → SucceedsAt s p d z := by
  constructor
  · intro h t z ht hz
    obtain ⟨stage, hstage, rfl⟩ := List.mem_map.mp ((hP.stores t).mp ht)
    refine h stage hstage z ((hP.stages stage hstage).mem_operators.mpr ?_)
    exact .inr ⟨hz.contains hp.wellFormed ht.contains, hz⟩
  · intro h stage hstage z hz
    have ht := (hP.stores stage.store).mpr (List.mem_map_of_mem hstage)
    rcases (hP.stages stage hstage).mem_operators.mp hz with rfl | ⟨-, hf⟩
    · exact h _ _ ht .refl
    · exact h _ z ht hf

end Engine

end Dataflow

import Dataflow.Proofs.Plan.Checked
import Dataflow.Proofs.Rewrite.Reports
import Dataflow.Proofs.Rewrite.Search

/-!
# Runs with any rules

At each point of a run there is something left to do (`Point.run`), and each step leads to a point
from which the same run goes on (`Step.run_eq`). No assumption is made on the rules: one that fails
leaves the plan as it was, and the run goes on as if it were in none of the sets. A run consists of
steps until it is done or stopped by an error (`run_traces`), so what every attempt keeps, the run
keeps. With validation switched on and checks that leave operators and edges alone, this is the
validity of the plan.
-/

namespace Dataflow

/-- Checking a match changes no operator and no edge; it may have schemas derived. -/
def Rule.ChecksOnly (rule : Rule) : Prop :=
  ∀ m p answer q, rule.check m p = .ok answer q → Plan.Alike p q

namespace Optimizer

open Plan

variable {config : Config} {rule : Rule} {rules : List Rule} {p q : Plan} {s t : Progress}
  {iteration : Nat} {set : RuleSet}

/-! ## Beginning and end -/

/-- Before anything else the settings and the plan are looked at. -/
def begin (config : Config) : Run Unit := onPlan do
  Plan.ofResult config.check
  Plan.ofResult (← get).validate

/-- Behind the rule sets the needed map keys are noted. -/
def finish (config : Config) : Run Unit := do
  if config.pruneMapKeys then
    let loads ← onPlan Plan.pruneMapKeys
    onReport fun r => { r with mapKeyLoads := loads }

@[simp] theorem onPlan_ofResult_eq_ok {β : Type} {r : Result β} {b : β} :
    onPlan (Plan.ofResult r) s = .ok b t ↔ r = .ok b ∧ s = t := by
  cases r <;> simp [onPlan, Plan.ofResult]

theorem begin_eq : begin config s =
    onPlan (Plan.ofResult (config.check >>= fun _ => s.plan.validate)) s := by
  unfold begin onPlan
  cases config.check <;> rfl

theorem finish_eq : finish config s = if config.pruneMapKeys then
    match Plan.pruneMapKeys s.plan with
    | .ok n plan => .ok () { plan, report := { s.report with mapKeyLoads := n } }
    | .error e plan => .error e { s with plan }
    else .ok () s := by
  unfold finish
  by_cases hprune : config.pruneMapKeys = true
  · rw [if_pos hprune, if_pos hprune]
    cases hkeys : Plan.pruneMapKeys s.plan with
    | ok n plan =>
      rw [Pass.bind_of_ok (show onPlan Plan.pruneMapKeys s = .ok n { s with plan } by
        unfold onPlan; rw [hkeys])]
      rfl
    | error e plan =>
      exact Pass.bind_eq_error.mpr (.inl (by unfold onPlan; rw [hkeys]))
  · rw [if_neg hprune, if_neg hprune]
    rfl

theorem Grows.finish : Grows (Optimizer.finish config) := by
  unfold Optimizer.finish
  split
  · exact .bind .onPlan fun n => .onReport fun _ => .of_eq rfl rfl rfl
  · exact .pure

theorem finish_valid {u : Unit} (h : finish config s = .ok u t) (hs : s.plan.validate = .ok ()) :
    t.plan.validate = .ok () := by
  rw [finish_eq] at h
  split at h
  · cases hkeys : Plan.pruneMapKeys s.plan with
    | error e plan => simp [hkeys] at h
    | ok n plan =>
      obtain rfl : _ = t := by simpa [hkeys] using h
      exact pruneMapKeys_validate hs hkeys
  · obtain rfl : s = t := by simpa using h
    exact hs

theorem fingerprint_eq_ok {d : Digest} :
    fingerprint s = .ok d t ↔ s.plan.fingerprint = .ok d ∧ s = t := by
  have heq : fingerprint s = onPlan (Plan.ofResult s.plan.fingerprint) s := rfl
  rw [heq]
  exact onPlan_ofResult_eq_ok

theorem fingerprint_eq_error {e : Error} (h : s.plan.fingerprint = .error e) :
    fingerprint s = .error e s := by
  show onPlan (Plan.ofResult s.plan.fingerprint) s = _
  rw [h]
  rfl

/-- The note that is made when a rule set leads back to a plan that was there before. -/
def revisited (set : RuleSet) : String :=
  s!"rule set '{set.name}' revisited an earlier plan; stopping"

/-- The note that is made when a rule set was gone through as often as may be. -/
def unsettled (config : Config) (set : RuleSet) : String :=
  s!"rule set '{set.name}' stopped after {config.maxIterations} " ++
    "iterations without reaching a fixpoint"

/-- The note that is made when a rule was applied as often as may be. -/
def appliedOften (rule : Rule) (applied : Nat) : String :=
  s!"rule '{rule.name}' applied {applied} times in one iteration; moving on"

/-! ## Points of a run -/

/-- A rule set that is being repeated. -/
structure Repetition where
  set : RuleSet
  /-- How many iterations may still be made. -/
  remaining : Nat
  iteration : Nat := 1
  /-- The fingerprints of the plans there were so far. -/
  seen : List Digest
  /-- The rule sets to come behind it. -/
  behind : List RuleSet

/-- An iteration under way. -/
structure Iteration where
  within : Repetition
  /-- The rules to come in it. -/
  rest : List Rule
  /-- Whether one of the rules before them changed the plan. -/
  changed : Bool := false

/-- A rule that is tried in a scope. -/
structure Attempt where
  rule : Rule
  scope : Option (List NodeId) := none
  /-- How often it may still be applied in this iteration. -/
  remaining : Nat
  /-- How often it was applied in this iteration. -/
  applied : Nat := 0

/-- Where a run stands. -/
inductive Point
  /-- Nothing was looked at yet. -/
  | start (sets : List RuleSet)
  /-- Some rule sets are to come. -/
  | between (sets : List RuleSet)
  /-- A rule set is gone through once more, or has been often enough. -/
  | turn (r : Repetition)
  /-- Some rules are to come in an iteration. -/
  | rules (i : Iteration)
  /-- A rule is tried, or has been applied often enough. -/
  | attempt (a : Attempt) (i : Iteration)
  | done

/-- Where a run stands, and what it has come to. -/
structure Moment where
  point : Point
  progress : Progress

/-- The iteration behind a rule that was applied so often. -/
def Iteration.after (i : Iteration) (applied : Nat) : Iteration :=
  { i with changed := i.changed || decide (applied > 0) }

/-- The attempt that follows when a region was changed. -/
def Attempt.again (config : Config) (a : Attempt) (region : List NodeId) : Attempt where
  rule := a.rule
  scope := match config.rescan with
    | .region => some region
    | .whole => none
  remaining := a.remaining - 1
  applied := a.applied + 1

/-! ### What is left to do -/

/-- What is done behind the last rule of an iteration. -/
def Repetition.conclude (config : Config) (r : Repetition) (changed : Bool) : Run Unit := do
  if changed then
    let now ← fingerprint
    if r.seen.contains now then onReport (·.warn (revisited r.set))
    else repeatSet config r.set r.remaining (r.iteration + 1) (now :: r.seen)

/-- What is done when the repetition is over. -/
def Repetition.leave (config : Config) (r : Repetition) : Run Unit := do
  runSets config r.behind
  finish config

def Iteration.run (config : Config) (i : Iteration) : Run Unit := do
  let more ← applyRules config i.within.iteration i.rest
  i.within.conclude config (i.changed || more)
  i.within.leave config

/-- What is left of a run. -/
def Point.run (config : Config) : Point → Run Unit
  | .start sets => do
    begin config
    runSets config sets
    finish config
  | .between sets => do
    runSets config sets
    finish config
  | .turn r => do
    repeatSet config r.set r.remaining r.iteration r.seen
    r.leave config
  | .rules i => i.run config
  | .attempt a i => do
    let n ← applyRepeatedly config a.rule i.within.iteration a.remaining a.applied a.scope
    (i.after n).run config
  | .done => pure ()

def Moment.run (config : Config) (m : Moment) : EStateM.Result Error Progress Unit :=
  m.point.run config m.progress

/-! ## Steps -/

/-- One step of a run. -/
inductive Step (config : Config) : Moment → Moment → Prop
  | start {sets : List RuleSet} {s t : Progress} : begin config s = .ok () t →
      Step config ⟨.start sets, s⟩ ⟨.between sets, t⟩
  | finish {s t : Progress} : finish config s = .ok () t →
      Step config ⟨.between [], s⟩ ⟨.done, t⟩
  | enter {set : RuleSet} {behind : List RuleSet} {s : Progress} {d : Digest} :
      s.plan.fingerprint = .ok d → Step config ⟨.between (set :: behind), s⟩
        ⟨.turn { set, remaining := config.maxIterations, seen := [d], behind }, s⟩
  | turn {r : Repetition} {s : Progress} : 0 < r.remaining → Step config ⟨.turn r, s⟩
      ⟨.rules { within := { r with remaining := r.remaining - 1 }, rest := r.set.rules },
        { s with report := { s.report with iterations := s.report.iterations + 1 } }⟩
  | exhausted {r : Repetition} {s : Progress} : r.remaining = 0 → Step config ⟨.turn r, s⟩
      ⟨.between r.behind, { s with report := s.report.ceiling (unsettled config r.set) }⟩
  | skip {r : Repetition} {rule : Rule} {rest : List Rule} {changed : Bool} {s : Progress} :
      config.isDisabled rule.name = true ∨ rule.name ∈ s.report.disabledRules →
      Step config ⟨.rules ⟨r, rule :: rest, changed⟩, s⟩ ⟨.rules ⟨r, rest, changed⟩, s⟩
  | use {r : Repetition} {rule : Rule} {rest : List Rule} {changed : Bool} {s : Progress}
      {root : NodeId} : config.isDisabled rule.name = false → rule.name ∉ s.report.disabledRules →
      (rule.pattern >>= Pattern.root) = .ok root →
      Step config ⟨.rules ⟨r, rule :: rest, changed⟩, s⟩
        ⟨.attempt { rule, remaining := config.maxIterations } ⟨r, rest, changed⟩, s⟩
  | applied {a : Attempt} {i : Iteration} {s : Progress} {region : List NodeId} {q : Plan} :
      0 < a.remaining → matchAndTransform config a.rule a.scope s.plan = .ok (some region) q →
      Step config ⟨.attempt a i, s⟩ ⟨.attempt (a.again config region) i,
        ⟨q, s.report.record a.rule.name (traceEntry config a.rule i.within.iteration s.plan q)⟩⟩
  | nothing {a : Attempt} {i : Iteration} {s : Progress} {q : Plan} :
      0 < a.remaining → matchAndTransform config a.rule a.scope s.plan = .ok none q →
      Step config ⟨.attempt a i, s⟩ ⟨.rules (i.after a.applied), { s with plan := q }⟩
  | failed {a : Attempt} {i : Iteration} {s : Progress} {e : Error} {q : Plan} :
      0 < a.remaining → matchAndTransform config a.rule a.scope s.plan = .error e q →
      config.failurePolicy = .bestEffort → Step config ⟨.attempt a i, s⟩
        ⟨.rules (i.after a.applied), { s with report := s.report.disable a.rule.name e }⟩
  | enough {a : Attempt} {i : Iteration} {s : Progress} : a.remaining = 0 →
      Step config ⟨.attempt a i, s⟩ ⟨.rules (i.after a.applied),
        { s with report := s.report.ceiling (appliedOften a.rule a.applied) }⟩
  | unchanged {r : Repetition} {s : Progress} :
      Step config ⟨.rules ⟨r, [], false⟩, s⟩ ⟨.between r.behind, s⟩
  | revisited {r : Repetition} {s : Progress} {d : Digest} : s.plan.fingerprint = .ok d →
      d ∈ r.seen → Step config ⟨.rules ⟨r, [], true⟩, s⟩
        ⟨.between r.behind, { s with report := s.report.warn (revisited r.set) }⟩
  | again {r : Repetition} {s : Progress} {d : Digest} : s.plan.fingerprint = .ok d →
      d ∉ r.seen → Step config ⟨.rules ⟨r, [], true⟩, s⟩
        ⟨.turn { r with iteration := r.iteration + 1, seen := d :: r.seen }, s⟩

/-- Some steps of a run. -/
def Steps (config : Config) : Moment → Moment → Prop := Relation.ReflTransGen (Step config)

/-- An error stops the run. -/
inductive Stops (config : Config) : Moment → Error → Progress → Prop
  | start {sets : List RuleSet} {s t : Progress} {e : Error} : begin config s = .error e t →
      Stops config ⟨.start sets, s⟩ e t
  | finish {s t : Progress} {e : Error} : finish config s = .error e t →
      Stops config ⟨.between [], s⟩ e t
  | enter {set : RuleSet} {behind : List RuleSet} {s : Progress} {e : Error} :
      s.plan.fingerprint = .error e → Stops config ⟨.between (set :: behind), s⟩ e s
  | use {r : Repetition} {rule : Rule} {rest : List Rule} {changed : Bool} {s : Progress}
      {e : Error} : config.isDisabled rule.name = false → rule.name ∉ s.report.disabledRules →
      (rule.pattern >>= Pattern.root) = .error e →
      Stops config ⟨.rules ⟨r, rule :: rest, changed⟩, s⟩ e s
  | failed {a : Attempt} {i : Iteration} {s : Progress} {e : Error} {q : Plan} :
      0 < a.remaining → matchAndTransform config a.rule a.scope s.plan = .error e q →
      config.failurePolicy = .abort →
      Stops config ⟨.attempt a i, s⟩ (ruleError a.rule.name e) { s with plan := q }
  | again {r : Repetition} {s : Progress} {e : Error} : s.plan.fingerprint = .error e →
      Stops config ⟨.rules ⟨r, [], true⟩, s⟩ e s

variable {m m' : Moment} {a b : Attempt} {i j : Iteration} {r : Repetition}

/-! ### The run goes on -/

/-- One attempt, and what follows it. -/
theorem applyRepeatedly_succ {remaining applied : Nat} {scope : Option (List NodeId)} :
    applyRepeatedly config rule iteration (remaining + 1) applied scope s =
      match matchAndTransform config rule scope s.plan with
      | .ok none plan => .ok applied { s with plan }
      | .ok (some region) plan =>
        applyRepeatedly config rule iteration remaining (applied + 1)
          (match config.rescan with | .region => some region | .whole => none)
          { plan, report :=
              s.report.record rule.name (traceEntry config rule iteration s.plan plan) }
      | .error e plan =>
        match config.failurePolicy with
        | .bestEffort => .ok applied { s with report := s.report.disable rule.name e }
        | .abort => .error (ruleError rule.name e) { s with plan } := by
  rw [applyRepeatedly, Pass.bind_of_ok Pass.get_apply]
  dsimp only
  cases matchAndTransform config rule scope s.plan with
  | error e plan => cases config.failurePolicy <;> rfl
  | ok region? plan => cases region? <;> rfl

/-- One iteration, and what follows it. -/
theorem repeatSet_of_pos (h : 0 < r.remaining) :
    repeatSet config r.set r.remaining r.iteration r.seen = (do
      onReport fun report => { report with iterations := report.iterations + 1 }
      let changed ← applyRules config r.iteration r.set.rules
      { r with remaining := r.remaining - 1 }.conclude config changed) := by
  obtain ⟨n, hn⟩ := Nat.exists_eq_succ_of_ne_zero (Nat.ne_of_gt h)
  rw [hn]
  rfl

/-- A rule that is out of use is passed over. -/
theorem applyRules_skip {rest : List Rule}
    (h : config.isDisabled rule.name = true ∨ rule.name ∈ s.report.disabledRules) :
    applyRules config iteration (rule :: rest) s = applyRules config iteration rest s := by
  conv_lhs => unfold applyRules
  rw [Pass.bind_of_ok Pass.get_apply, if_pos]
  simpa using h

/-- A rule that is in use is applied, and then those behind it are. -/
theorem applyRules_use {rest : List Rule} (hconfig : config.isDisabled rule.name = false)
    (hs : rule.name ∉ s.report.disabledRules) : applyRules config iteration (rule :: rest) s =
      (applyRule config rule iteration >>= fun n => do
        return n > 0 || (← applyRules config iteration rest)) s := by
  conv_lhs => unfold applyRules
  rw [Pass.bind_of_ok Pass.get_apply, if_neg]
  simp [hconfig, hs]

theorem applyRule_of_root {root : NodeId} (h : (rule.pattern >>= Pattern.root) = .ok root) :
    applyRule config rule iteration s =
      applyRepeatedly config rule iteration config.maxIterations 0 none s := by
  unfold applyRule
  rw [h]
  rfl

/-- What a try to apply a rule comes to: it goes on, it finds nothing, or it fails. -/
theorem applyRepeatedly_of_applied {region : List NodeId} (hpos : 0 < a.remaining)
    (h : matchAndTransform config a.rule a.scope s.plan = .ok (some region) q) :
    applyRepeatedly config a.rule iteration a.remaining a.applied a.scope s =
      applyRepeatedly config a.rule iteration (a.again config region).remaining
        (a.again config region).applied (a.again config region).scope
        ⟨q, s.report.record a.rule.name (traceEntry config a.rule iteration s.plan q)⟩ := by
  obtain ⟨n, hn⟩ := Nat.exists_eq_succ_of_ne_zero (Nat.ne_of_gt hpos)
  rw [hn, applyRepeatedly_succ, h]
  unfold Attempt.again
  rw [hn]
  rfl

theorem applyRepeatedly_of_nothing (hpos : 0 < a.remaining)
    (h : matchAndTransform config a.rule a.scope s.plan = .ok none q) :
    applyRepeatedly config a.rule iteration a.remaining a.applied a.scope s =
      .ok a.applied { s with plan := q } := by
  obtain ⟨n, hn⟩ := Nat.exists_eq_succ_of_ne_zero (Nat.ne_of_gt hpos)
  rw [hn, applyRepeatedly_succ, h]

theorem applyRepeatedly_of_failed {e : Error} (hpos : 0 < a.remaining)
    (h : matchAndTransform config a.rule a.scope s.plan = .error e q) :
    applyRepeatedly config a.rule iteration a.remaining a.applied a.scope s =
      match config.failurePolicy with
      | .bestEffort => .ok a.applied { s with report := s.report.disable a.rule.name e }
      | .abort => .error (ruleError a.rule.name e) { s with plan := q } := by
  obtain ⟨n, hn⟩ := Nat.exists_eq_succ_of_ne_zero (Nat.ne_of_gt hpos)
  rw [hn, applyRepeatedly_succ, h]

theorem attempt_run_of_ok {n : Nat} (h : applyRepeatedly config a.rule i.within.iteration
    a.remaining a.applied a.scope s = .ok n t) :
    Moment.run config ⟨.attempt a i, s⟩ = Moment.run config ⟨.rules (i.after n), t⟩ := by
  show (applyRepeatedly config a.rule i.within.iteration a.remaining a.applied a.scope >>= _) s = _
  exact Pass.bind_of_ok h

/-- A step leaves the same run to be done. -/
theorem Step.run_eq (h : Step config m m') : m.run config = m'.run config := by
  cases h with
  | start h => exact Pass.bind_of_ok h
  | finish h => exact h
  | enter h =>
    show (runSets config _ >>= fun _ => Optimizer.finish config) _ = _
    unfold runSets
    simp only [bind_assoc]
    exact Pass.bind_of_ok (fingerprint_eq_ok.mpr ⟨h, rfl⟩)
  | @turn r s h =>
    show (repeatSet config r.set r.remaining r.iteration r.seen >>= fun _ => r.leave config) s = _
    rw [repeatSet_of_pos h]
    simp only [bind_assoc]
    rfl
  | @exhausted r s h =>
    show (repeatSet config r.set r.remaining r.iteration r.seen >>= fun _ => r.leave config) s = _
    rw [h]
    rfl
  | @skip r rule rest changed s h =>
    exact Pass.bind_congr (applyRules_skip h) fun _ _ _ => rfl
  | @use r rule rest changed s root huse hs hroot =>
    show (applyRules config r.iteration (rule :: rest) >>= _) s = _
    rw [Pass.bind_congr (applyRules_use huse hs) fun _ _ _ => rfl]
    simp only [bind_assoc]
    refine Pass.bind_congr (applyRule_of_root hroot) fun n t _ => ?_
    refine Pass.bind_congr rfl fun more u _ => ?_
    show (Repetition.conclude config r (changed || (decide (n > 0) || more)) >>= _) u = _
    rw [← Bool.or_assoc]
    rfl
  | @applied a i s region q hpos h =>
    exact Pass.bind_from (applyRepeatedly_of_applied hpos h)
  | nothing hpos h => exact attempt_run_of_ok (applyRepeatedly_of_nothing hpos h)
  | failed hpos h hpolicy =>
    refine attempt_run_of_ok ?_
    rw [applyRepeatedly_of_failed hpos h, hpolicy]
  | @enough a i s h =>
    refine attempt_run_of_ok ?_
    rw [h]
    rfl
  | @unchanged r s => rfl
  | @revisited r s d h hseen =>
    show (Repetition.conclude config r true >>= _) s = _
    refine Pass.bind_of_ok (a := ()) ?_
    unfold Repetition.conclude
    rw [if_pos rfl, Pass.bind_of_ok (fingerprint_eq_ok.mpr ⟨h, rfl⟩),
      if_pos (List.contains_iff_mem.mpr hseen)]
    rfl
  | @again r s d h hseen =>
    show (Repetition.conclude config r true >>= _) s = _
    unfold Repetition.conclude
    rw [if_pos rfl]
    simp only [bind_assoc]
    rw [Pass.bind_of_ok (fingerprint_eq_ok.mpr ⟨h, rfl⟩), if_neg (by simpa using hseen)]
    rfl

/-- So do some steps. -/
theorem Steps.run_eq (h : Steps config m m') : m.run config = m'.run config := by
  induction h with
  | refl => rfl
  | tail _ hstep ih => exact ih.trans hstep.run_eq

/-! ### What steps keep -/

/-- No rule comes back into use. -/
theorem Step.disabledRules (h : Step config m m') :
    m.progress.report.disabledRules ⊆ m'.progress.report.disabledRules := by
  cases h with
  | start h =>
    rw [begin_eq] at h
    obtain ⟨-, rfl⟩ := onPlan_ofResult_eq_ok.mp h
    exact List.Subset.refl _
  | finish h => exact (Grows.finish.le h).disabledRules
  | failed => exact Report.le_disable.disabledRules
  | _ => exact List.Subset.refl _

theorem Steps.disabledRules (h : Steps config m m') :
    m.progress.report.disabledRules ⊆ m'.progress.report.disabledRules := by
  induction h with
  | refl => exact List.Subset.refl _
  | tail _ hstep ih => exact List.Subset.trans ih hstep.disabledRules

/-- If a rule is being tried, then it is in use. -/
def Moment.TriesInUse (m : Moment) : Prop :=
  ∀ a i, m.point = .attempt a i → a.rule.name ∉ m.progress.report.disabledRules

theorem Step.triesInUse (h : Step config m m') (hm : m.TriesInUse) : m'.TriesInUse := by
  intro b j hb
  cases h with
  | use _ hs _ =>
    obtain ⟨rfl, rfl⟩ := Point.attempt.inj hb
    exact hs
  | @applied a i =>
    obtain ⟨rfl, rfl⟩ := Point.attempt.inj hb
    exact hm a _ rfl
  | _ => cases hb

theorem Steps.triesInUse (h : Steps config m m') (hm : m.TriesInUse) : m'.TriesInUse := by
  induction h with
  | refl => exact hm
  | tail _ hstep ih => exact hstep.triesInUse ih

/-- A rule that is out of use is not tried. -/
theorem Steps.name_ne {name : String} (h : Steps config ⟨.rules i, s⟩ ⟨.attempt b j, t⟩)
    (hname : name ∈ s.report.disabledRules) : b.rule.name ≠ name := by
  rintro rfl
  have hstart : Moment.TriesInUse ⟨.rules i, s⟩ := fun _ _ h => by cases h
  exact h.triesInUse hstart b j rfl (h.disabledRules hname)

/-- The rules that may still be tried. -/
def Repetition.allRules (r : Repetition) : List Rule :=
  r.set.rules ++ r.behind.flatMap RuleSet.rules

def Point.allRules : Point → List Rule
  | .start sets => sets.flatMap RuleSet.rules
  | .between sets => sets.flatMap RuleSet.rules
  | .turn r => r.allRules
  | .rules i => i.rest ++ i.within.allRules
  | .attempt a i => a.rule :: (i.rest ++ i.within.allRules)
  | .done => []

theorem Step.allRules (h : Step config m m') : m'.point.allRules ⊆ m.point.allRules := by
  intro rule hrule
  cases h with
  | start => exact hrule
  | finish => cases hrule
  | enter => exact hrule
  | turn =>
    rcases List.mem_append.mp hrule with hrule | hrule
    · exact List.mem_append_left _ hrule
    · exact hrule
  | exhausted => exact List.mem_append_right _ hrule
  | skip => exact List.mem_cons_of_mem _ hrule
  | use => exact hrule
  | applied => exact hrule
  | nothing => exact List.mem_cons_of_mem _ hrule
  | failed => exact List.mem_cons_of_mem _ hrule
  | enough => exact List.mem_cons_of_mem _ hrule
  | @unchanged r s => exact List.mem_append_right r.set.rules hrule
  | @revisited r s => exact List.mem_append_right r.set.rules hrule
  | again => exact hrule

/-- What every attempt of the rules keeps, a step keeps that does not end the run. -/
theorem Step.keeps {I : Plan → Prop} (h : Step config m m') (hm' : m'.point ≠ .done)
    (hI : ∀ rule ∈ m.point.allRules, ∀ scope p region? q,
      matchAndTransform config rule scope p = .ok region? q → I p → I q)
    (hm : I m.progress.plan) : I m'.progress.plan := by
  cases h with
  | start h =>
    rw [begin_eq] at h
    obtain ⟨-, rfl⟩ := onPlan_ofResult_eq_ok.mp h
    exact hm
  | finish => exact absurd rfl hm'
  | applied _ h => exact hI _ List.mem_cons_self _ _ _ _ h hm
  | nothing _ h => exact hI _ List.mem_cons_self _ _ _ _ h hm
  | _ => exact hm

theorem Steps.allRules (h : Steps config m m') : m'.point.allRules ⊆ m.point.allRules := by
  induction h with
  | refl => exact List.Subset.refl _
  | tail _ hstep ih => exact List.Subset.trans hstep.allRules ih

theorem Step.not_done (h : Step config m m') : m.point ≠ .done := by
  cases h <;> exact fun h => by cases h

theorem Steps.keeps {I : Plan → Prop} (h : Steps config m m') (hm' : m'.point ≠ .done)
    (hI : ∀ rule ∈ m.point.allRules, ∀ scope p region? q,
      matchAndTransform config rule scope p = .ok region? q → I p → I q)
    (hm : I m.progress.plan) : I m'.progress.plan := by
  induction h with
  | refl => exact hm
  | tail hsteps hstep ih =>
    exact hstep.keeps hm' (fun rule hrule => hI rule (Steps.allRules hsteps hrule))
      (ih hstep.not_done)

/-! ## A run consists of steps -/

/-- A stretch of a run consists of steps: either it leads to a point that depends on its result, or
an error stops it. -/
def Traces {β : Type} (config : Config) (m : Moment) (point : β → Point) :
    EStateM.Result Error Progress β → Prop
  | .ok b t => Steps config m ⟨point b, t⟩
  | .error e t => ∃ m', Steps config m m' ∧ Stops config m' e t

namespace Traces

variable {β γ : Type} {x : Run β} {f : β → Run γ} {point : β → Point} {point' : γ → Point}
  {e : Error} {c : Point}

theorem single {b : β} (h : Step config m ⟨point b, t⟩) :
    Traces config m point (.ok b t) :=
  Relation.ReflTransGen.single h

theorem stop (h : Stops config m e t) : Traces config m point (.error e t) := ⟨m, .refl, h⟩

theorem prepend {result : EStateM.Result Error Progress β} (h : Steps config m m')
    (hresult : Traces config m' point result) : Traces config m point result := by
  cases result with
  | ok b t => exact Relation.ReflTransGen.trans h hresult
  | error e t =>
    obtain ⟨m'', hsteps, hstops⟩ := hresult
    exact ⟨m'', Relation.ReflTransGen.trans h hsteps, hstops⟩

theorem head {result : EStateM.Result Error Progress β} (h : Step config m m')
    (hresult : Traces config m' point result) : Traces config m point result :=
  prepend (.single h) hresult

theorem bind (hx : Traces config ⟨c, s⟩ point (x s))
    (hf : ∀ b t, x s = .ok b t → Traces config ⟨point b, t⟩ point' (f b t)) :
    Traces config ⟨c, s⟩ point' ((x >>= f) s) := by
  cases h : x s with
  | error e t =>
    rw [h] at hx
    rw [Pass.bind_eq_error.mpr (.inl h)]
    exact hx
  | ok b t =>
    rw [h] at hx
    rw [Pass.bind_of_ok h]
    exact prepend hx (hf b t h)

end Traces

theorem applyRepeatedly_traces : ∀ {remaining applied : Nat} {scope : Option (List NodeId)}
    {s : Progress}, Traces config ⟨.attempt ⟨rule, scope, remaining, applied⟩ i, s⟩
      (fun n => .rules (i.after n))
      (applyRepeatedly config rule i.within.iteration remaining applied scope s) := by
  intro remaining
  induction remaining with
  | zero => exact .single (.enough rfl)
  | succ remaining ih =>
    intro applied scope s
    have hpos : 0 < remaining + 1 := Nat.succ_pos remaining
    rw [applyRepeatedly_succ]
    cases hrun : matchAndTransform config rule scope s.plan with
    | error e q =>
      cases hpolicy : config.failurePolicy with
      | bestEffort => exact .single (.failed hpos hrun hpolicy)
      | abort => exact .stop (.failed hpos hrun hpolicy)
    | ok region? q =>
      cases region? with
      | none => exact .single (.nothing hpos hrun)
      | some region => exact .head (.applied hpos hrun) ih

theorem applyRule_traces {rest : List Rule} {changed : Bool}
    (hconfig : config.isDisabled rule.name = false) (hs : rule.name ∉ s.report.disabledRules) :
    Traces config ⟨.rules ⟨r, rule :: rest, changed⟩, s⟩
      (fun n => .rules (Iteration.after ⟨r, rest, changed⟩ n))
      (applyRule config rule r.iteration s) := by
  cases hroot : rule.pattern >>= Pattern.root with
  | error e =>
    have hrun : applyRule config rule r.iteration s = .error e s := by
      unfold applyRule
      rw [hroot]
      rfl
    rw [hrun]
    exact .stop (.use hconfig hs hroot)
  | ok root =>
    rw [applyRule_of_root hroot]
    exact .head (.use hconfig hs hroot) (applyRepeatedly_traces (i := ⟨r, rest, changed⟩))

theorem applyRules_traces : ∀ {rest : List Rule} {changed : Bool} {s : Progress},
    Traces config ⟨.rules ⟨r, rest, changed⟩, s⟩ (fun more => .rules ⟨r, [], changed || more⟩)
      (applyRules config r.iteration rest s) := by
  intro rest
  induction rest with
  | nil =>
    intro changed s
    show Steps config _ ⟨.rules ⟨r, [], changed || false⟩, s⟩
    rw [Bool.or_false]
    exact .refl
  | cons rule rest ih =>
    intro changed s
    by_cases hskip : config.isDisabled rule.name = true ∨ rule.name ∈ s.report.disabledRules
    · rw [applyRules_skip hskip]
      exact .head (.skip hskip) ih
    · obtain ⟨hconfig, hs⟩ := not_or.mp hskip
      rw [applyRules_use (by simpa using hconfig) hs]
      refine .bind (applyRule_traces (by simpa using hconfig) hs) fun n t _ => ?_
      refine .bind ih fun more u _ => ?_
      show Steps config _ ⟨.rules ⟨r, [], changed || (decide (n > 0) || more)⟩, u⟩
      rw [← Bool.or_assoc]
      exact .refl

theorem repeatSet_traces : ∀ {remaining iteration : Nat} {seen : List Digest}
    {behind : List RuleSet} {s : Progress},
    Traces config ⟨.turn ⟨set, remaining, iteration, seen, behind⟩, s⟩ (fun _ => .between behind)
      (repeatSet config set remaining iteration seen s) := by
  intro remaining
  induction remaining with
  | zero => exact .single (.exhausted rfl)
  | succ remaining ih =>
    intro iteration seen behind s
    refine .head (.turn (Nat.succ_pos remaining)) ?_
    show Traces config _ _ ((applyRules config iteration set.rules >>= _) _)
    refine .bind (applyRules_traces (r := ⟨set, remaining, iteration, seen, behind⟩))
      fun changed t _ => ?_
    cases changed with
    | false => exact .single .unchanged
    | true =>
      rw [if_pos rfl]
      cases hprint : t.plan.fingerprint with
      | error e =>
        rw [Pass.bind_eq_error.mpr (.inl (fingerprint_eq_error hprint))]
        exact .stop (.again hprint)
      | ok d =>
        rw [Pass.bind_of_ok (fingerprint_eq_ok.mpr ⟨hprint, rfl⟩)]
        by_cases hseen : d ∈ seen
        · rw [if_pos (List.contains_iff_mem.mpr hseen)]
          exact .single (.revisited hprint hseen)
        · rw [if_neg (by simpa using hseen)]
          exact .head (.again hprint hseen) ih

theorem runSets_traces {behind : List RuleSet} : ∀ {sets : List RuleSet} {s : Progress},
    Traces config ⟨.between (sets ++ behind), s⟩ (fun _ => .between behind)
      (runSets config sets s) := by
  intro sets
  induction sets with
  | nil => exact Relation.ReflTransGen.refl
  | cons set rest ih =>
    intro s
    unfold runSets
    cases hprint : s.plan.fingerprint with
    | error e =>
      rw [Pass.bind_eq_error.mpr (.inl (fingerprint_eq_error hprint))]
      exact .stop (.enter hprint)
    | ok d =>
      rw [Pass.bind_of_ok (fingerprint_eq_ok.mpr ⟨hprint, rfl⟩)]
      exact .head (.enter hprint) (.bind repeatSet_traces fun _ _ _ => ih)

/-! ## Plans stay valid -/

theorem PassesOver.alike {found : List Match} (hchecks : rule.ChecksOnly)
    (h : PassesOver rule found p q) : Alike p q := by
  induction h with
  | done => exact .refl
  | gone _ _ ih => exact ih
  | refused _ hc _ ih => exact (hchecks _ _ _ _ hc).trans ih

/-- An attempt that finds nothing asked at most for schemas, and one that changes the plan was
validated. -/
theorem valid_of_attempt {scope region? : Option (List NodeId)} (hvalidate : config.validate = true)
    (hchecks : rule.ChecksOnly) (h : matchAndTransform config rule scope p = .ok region? q)
    (hp : p.validate = .ok ()) : q.validate = .ok () := by
  obtain ⟨found, -, hrun⟩ := matchAndTransform_eq_ok.mp h
  have hcases := transformFirst_cases config rule found p
  rw [hrun] at hcases
  cases region? with
  | none => exact (PassesOver.alike hchecks hcases).sameChecks.validate hp
  | some region =>
    obtain ⟨_, _, _, _, -, -, _, hchanges, -⟩ := hcases
    exact hchanges.valid hvalidate

/-! ## Whole runs -/

variable {o : Optimizer} {report : Report}

/-- The rules of all sets. -/
def allRules (o : Optimizer) : List Rule := o.sets.flatMap RuleSet.rules

theorem run_eq : o.run = (do begin o.config; runSets o.config o.sets; finish o.config) := rfl

/-- A run consists of steps, from the beginning on until it is done or an error stops it. -/
theorem run_traces : Traces o.config ⟨.start o.sets, s⟩ (fun _ => .done) (o.run s) := by
  rw [run_eq]
  cases hbegin : begin o.config s with
  | error e t =>
    rw [Pass.bind_eq_error.mpr (.inl hbegin)]
    exact .stop (.start hbegin)
  | ok u t =>
    rw [Pass.bind_of_ok hbegin]
    have hsets : Traces o.config ⟨.between (o.sets ++ []), t⟩ (fun _ => .between [])
        (runSets o.config o.sets t) := runSets_traces
    rw [List.append_nil] at hsets
    refine .head (.start hbegin) (.bind hsets fun _ t' _ => ?_)
    cases hfinish : finish o.config t' with
    | error e t'' => exact .stop (.finish hfinish)
    | ok u t'' => exact .single (.finish hfinish)

/-- What a run that succeeds goes through. -/
theorem optimize_eq_ok : o.optimize p = .ok report q ↔ o.config.check = .ok () ∧
    p.validate = .ok () ∧ ∃ t, runSets o.config o.sets { plan := p } = .ok () t ∧
      finish o.config t = .ok () { plan := q, report } := by
  have hrun : o.optimize p = .ok report q ↔
      o.run { plan := p } = .ok () { plan := q, report } := by
    unfold optimize
    cases o.run { plan := p } with
    | ok _ t => cases t; simp [and_comm]
    | error e t => simp
  rw [hrun, run_eq, Pass.bind_eq_ok]
  constructor
  · rintro ⟨_, s, hbegin, hrest⟩
    obtain ⟨_, t, hsets, hfinish⟩ := Pass.bind_eq_ok.mp hrest
    rw [begin_eq] at hbegin
    obtain ⟨hstart, rfl⟩ := onPlan_ofResult_eq_ok.mp hbegin
    obtain ⟨hcheck, hvalid⟩ := Pass.except_bind_unit_eq_ok.mp hstart
    exact ⟨hcheck, hvalid, t, hsets, hfinish⟩
  · rintro ⟨hcheck, hvalid, t, hsets, hfinish⟩
    refine ⟨(), { plan := p }, ?_, Pass.bind_eq_ok.mpr ⟨(), t, hsets, hfinish⟩⟩
    rw [begin_eq]
    exact onPlan_ofResult_eq_ok.mpr ⟨Pass.except_bind_unit_eq_ok.mpr ⟨hcheck, hvalid⟩, rfl⟩

/-! ### Without a rule -/

/-- The rest of an iteration and of the run behind it without the rules of a name. -/
def Repetition.without (name : String) (r : Repetition) : Repetition :=
  { r with set := r.set.without name, behind := r.behind.map (RuleSet.without name) }

def Iteration.without (name : String) (i : Iteration) : Iteration :=
  { i with within := i.within.without name, rest := i.rest.filter (·.name ≠ name) }

theorem Repetition.grows_conclude {changed : Bool} : Grows (r.conclude config changed) := by
  unfold conclude
  split
  · refine .bind .onPlan fun now => ?_
    split
    · exact .onReport fun _ => Report.le_warn
    · exact .repeatSet _ _ _
  · exact .pure

theorem Repetition.conclude_without {name : String} {changed : Bool}
    (hname : name ∈ s.report.disabledRules) :
    (r.without name).conclude config changed s = r.conclude config changed s := by
  obtain ⟨set, remaining, iteration, seen, behind⟩ := r
  unfold conclude without
  cases changed with
  | false => rfl
  | true =>
    refine Pass.bind_congr rfl fun now t ht => ?_
    split
    · rfl
    · exact repeatSet_without ((Grows.onPlan.le ht).disabledRules hname)

/-- What is left of a run is the same without a rule that is out of use. -/
theorem Iteration.run_without {name : String} (hname : name ∈ s.report.disabledRules) :
    (i.without name).run config s = i.run config s := by
  refine Pass.bind_congr (applyRules_without hname) fun more t ht => ?_
  have ht' := ((Grows.applyRules _).le ht).disabledRules hname
  refine Pass.bind_congr (Repetition.conclude_without ht') fun _ u hu => ?_
  have hu' := (Repetition.grows_conclude.le hu).disabledRules ht'
  exact Pass.bind_congr (runSets_without hu') fun _ _ _ => rfl

/-! ### Failures -/

/-- The rule may still be applied, and the check of a match, its transform or the validation after
it fails. -/
def Attempt.FailsOn (config : Config) (a : Attempt) (p : Plan) : Prop :=
  0 < a.remaining ∧ ∃ found e q, a.rule.findMatches p a.scope = .ok found ∧
    Decides a.rule found p fun m t => Fails config a.rule m t e q

theorem Attempt.FailsOn.exists_error (h : a.FailsOn config p) :
    0 < a.remaining ∧ ∃ e q, matchAndTransform config a.rule a.scope p = .error e q := by
  obtain ⟨hpos, found, e, q, hfound, hdecides⟩ := h
  exact ⟨hpos, e, q, matchAndTransform_eq_error.mpr (.inr ⟨found, hfound, hdecides⟩)⟩

/-- Whatever the rules do: as long as their checks leave operators and edges alone and every change
is validated, a run that succeeds ends with a valid plan. A run consists of steps. Where it goes on
after failures and comes to an attempt that fails, be it in the check, the transform or the
validation, the next step leaves the plan as it was, what is left of the run from there on is what
it would be if the rule were in none of the sets, and the rule is not tried again. -/
theorem outcome_of_any_rules (hvalidate : o.config.validate = true)
    (hchecks : ∀ rule ∈ o.allRules, rule.ChecksOnly) :
    (∀ report q, o.optimize p = .ok report q → q.validate = .ok ()) ∧
    Traces o.config ⟨.start o.sets, { plan := p }⟩ (fun _ => .done) (o.run { plan := p }) ∧
    (o.config.failurePolicy = .bestEffort → ∀ a i s,
      Steps o.config ⟨.start o.sets, { plan := p }⟩ ⟨.attempt a i, s⟩ →
      a.FailsOn o.config s.plan → ∃ e t, t = { s with report := s.report.disable a.rule.name e } ∧
        Step o.config ⟨.attempt a i, s⟩ ⟨.rules (i.after a.applied), t⟩ ∧
        o.run { plan := p } = ((i.after a.applied).without a.rule.name).run o.config t ∧
        ∀ b j u, Steps o.config ⟨.rules (i.after a.applied), t⟩ ⟨.attempt b j, u⟩ →
          b.rule.name ≠ a.rule.name) := by
  refine ⟨fun report q h => ?_, run_traces, fun hpolicy a i s hreach hfails => ?_⟩
  · obtain ⟨-, hvalid, t, hrun, hfinish⟩ := optimize_eq_ok.mp h
    have hsets : Traces o.config ⟨.between (o.sets ++ []), { plan := p }⟩ (fun _ => .between [])
        (runSets o.config o.sets { plan := p }) := runSets_traces
    rw [hrun, List.append_nil] at hsets
    have hkept : t.plan.validate = .ok () := Steps.keeps (I := fun q => q.validate = .ok ()) hsets
      (by simp) (fun rule hrule _ _ _ _ => valid_of_attempt hvalidate (hchecks rule hrule)) hvalid
    exact finish_valid hfinish hkept
  · obtain ⟨hpos, e, q, herror⟩ := hfails.exists_error
    have hstep : Step o.config ⟨.attempt a i, s⟩ ⟨.rules (i.after a.applied), _⟩ :=
      .failed hpos herror hpolicy
    have hname : a.rule.name ∈ (s.report.disable a.rule.name e).disabledRules :=
      Report.mem_disable.mpr (.inl rfl)
    refine ⟨e, _, rfl, hstep, ?_, fun b j u hsteps => hsteps.name_ne hname⟩
    rw [Iteration.run_without hname]
    exact (Steps.run_eq hreach).trans hstep.run_eq

/-- A rule that takes a filter off its input, after which the plan is not valid. -/
def severFilter : Rule where
  name := "SeverFilter"
  pattern := Pattern.chain [.filter]
  transform m := do
    let id ← Plan.ofResult m.anchor
    for input in (← get).predecessors id do
      discard (Plan.disconnect input id)
    return .ofList [id]

/-- That rule and one that merges filters, which goes on when the other one has failed. -/
def severing : Optimizer where
  config := { failurePolicy := .bestEffort, pruneMapKeys := false }
  sets := [⟨"sever", [severFilter, Rule.mergeFilter]⟩]

/-- Two filters, one behind the other. -/
def twoFilters : Plan := made do
  let load ← append { operation := .load { location := "/in" } } []
  let upper ← append { operation := .filter (.constant (.boolean true)) } [load]
  append { operation := .filter (.constant (.boolean true)) } [upper]

/-- Looking whether filters are adjacent changes nothing. -/
theorem mergeFilter_unchanged {m : Match} {answer : Bool}
    (h : Rule.mergeFilter.check m p = .ok answer q) : p = q := by
  unfold Rule.mergeFilter at h
  dsimp only at h
  rw [Pass.bind_of_ok Pass.get_apply] at h
  obtain ⟨u, -, h⟩ := bind_ofResult_eq_ok.mp h
  exact (EStateM.Result.ok.inj h).2

theorem mergeFilter_checksOnly : Rule.mergeFilter.ChecksOnly := by
  intro m p answer q h
  exact mergeFilter_unchanged h ▸ .refl

/-- The severed plan is not valid and given up. The run goes on without that rule, and the filters
are merged all the same. -/
theorem severing_contained : ∃ report q, severing.optimize twoFilters = .ok report q ∧
    report.disabledRules = ["SeverFilter"] ∧ report.applications = [("MergeFilter", 1)] ∧
    q.validate = .ok () ∧ ∃ a i s t, a.rule.name = "SeverFilter" ∧ t.plan = s.plan ∧
      Step severing.config ⟨.attempt a i, s⟩ ⟨.rules (i.after 0), t⟩ ∧
      severing.run { plan := twoFilters } =
        ((i.after 0).without "SeverFilter").run severing.config t ∧
      ∀ b j u, Steps severing.config ⟨.rules (i.after 0), t⟩ ⟨.attempt b j, u⟩ →
        b.rule.name ≠ "SeverFilter" := by
  have hruns : (Pass.result? severing.optimize twoFilters).map
      (fun r => (r.disabledRules, r.applications)) =
        some (["SeverFilter"], [("MergeFilter", 1)]) := by decide +kernel
  obtain ⟨report, hreport, hnotes⟩ := Option.map_eq_some_iff.mp hruns
  obtain ⟨hdisabled, happlied⟩ := Prod.mk.inj hnotes
  have hchecks : ∀ rule ∈ severing.allRules, rule.ChecksOnly := by
    intro rule hrule
    obtain rfl | rfl : rule = severFilter ∨ rule = Rule.mergeFilter := by
      simpa [allRules, severing] using hrule
    · intro m p answer q h
      obtain ⟨-, rfl⟩ : _ ∧ p = q := by simpa [severFilter] using h
      exact .refl
    · exact mergeFilter_checksOnly
  have hrun := Pass.eq_ok_after hreport
  obtain ⟨hvalid, -, hcontained⟩ := outcome_of_any_rules (p := twoFilters) rfl hchecks
  -- the first attempt is of the rule that fails
  obtain ⟨root, hroot⟩ : ∃ root, (severFilter.pattern >>= Pattern.root) = .ok root :=
    Pass.except_isOk.mp (by decide +kernel)
  obtain ⟨found, hfound⟩ : ∃ found, severFilter.findMatches twoFilters none = .ok found :=
    Pass.except_isOk.mp (by decide +kernel)
  obtain ⟨d, hd⟩ : ∃ d, twoFilters.fingerprint = .ok d := Pass.except_isOk.mp (by decide +kernel)
  have hbegin : begin severing.config { plan := twoFilters } = .ok () { plan := twoFilters } := by
    rw [begin_eq]
    exact onPlan_ofResult_eq_ok.mpr ⟨by decide +kernel, rfl⟩
  have hpos : 0 < severing.config.maxIterations := by decide
  have hreach : Steps severing.config ⟨.start severing.sets, { plan := twoFilters }⟩
      ⟨.attempt { rule := severFilter, remaining := severing.config.maxIterations } _, _⟩ :=
    .tail (.tail (.tail (.single (.start hbegin)) (.enter hd)) (.turn hpos))
      (.use (by decide) (by simp) hroot)
  -- and it fails
  obtain ⟨e, herror⟩ := Pass.eq_error_after
    (x := matchAndTransform severing.config severFilter none)
    (s := twoFilters) (by decide +kernel)
  rcases matchAndTransform_eq_error.mp herror with ⟨hsearch, -⟩ | ⟨found', hfound', hdecides⟩
  · rw [hfound] at hsearch
    cases hsearch
  obtain ⟨e, t, ht, hstep, hrest, hnever⟩ := hcontained rfl _ _ _ hreach
    ⟨hpos, found', _, _, hfound', hdecides⟩
  exact ⟨report, _, hrun, hdisabled, happlied, hvalid _ _ hrun, _, _, _, t, rfl, by rw [ht], hstep,
    hrest, hnever⟩

end Optimizer

end Dataflow

import Dataflow.Proofs.Rewrite.Attempts
import Dataflow.Proofs.Rewrite.Default

/-!
# Quiet runs end with nothing left to do

A rule set is left in one of three ways: a ceiling was hit, an earlier plan came up again, or an
iteration changed nothing. In that last iteration each rule that is in use looked at the whole plan,
since only what follows a change is restricted to a region, and its check refused every match. If
checks are pure, then they still refuse these matches when the set is left, and there are no others
(`settled_of_quiet`).
-/

namespace Dataflow

open Plan

/-- Plans that count as the same have the same operators and edges, and are fit for the rules
alike. -/
structure Sameness (fit : Plan → Prop) (same : Plan → Plan → Prop) : Prop where
  wellFormed : ∀ {p}, fit p → p.graph.WellFormed
  refl : ∀ {p}, fit p → same p p
  trans : ∀ {p q r}, same p q → same q r → same p r
  alike : ∀ {p q}, same p q → Alike p q
  fit : ∀ {p q}, fit p → same p q → fit q

/-- The check of the rule is pure: it turns a plan into one that counts as the same, and there it
answers the same as often as it is asked. The transform may be anything, as long as what comes out
of it and is not refused by the validation is fit again. -/
structure Rule.Pure (config : Config) (fit : Plan → Prop) (same : Plan → Plan → Prop)
    (rule : Rule) : Prop where
  check : ∀ {p m answer q}, fit p → rule.Matches p m → rule.check m p = .ok answer q → same p q
  again : ∀ {p m answer q r}, fit p → rule.Matches p m → rule.check m p = .ok answer q →
    same q r → rule.check m r = .ok answer r
  transform : ∀ {p m q region r}, fit p → rule.Matches p m → rule.check m p = .ok true q →
    rule.transform m q = .ok region r → (config.validate = true → r.validate = .ok ()) → fit r

/-- Every match of the rule is refused, and asking changes nothing more. -/
def Rule.Refuses (rule : Rule) (p : Plan) : Prop :=
  ∀ m, rule.Matches p m → rule.check m p = .ok false p

variable {config : Config} {rule : Rule} {rules : List Rule} {p q : Plan}
  {fit : Plan → Prop} {same : Plan → Plan → Prop} {fault : Plan → Error → Prop}

/-- Plans without change count as the same in any case. -/
theorem sameness_eq (h : ∀ p, fit p → p.graph.WellFormed) : Sameness fit Eq where
  wellFormed hp := h _ hp
  refl _ := rfl
  trans h h' := h.trans h'
  alike h := h ▸ .refl
  fit hp h := h ▸ hp

/-- A check that changes nothing is pure. -/
theorem Rule.pure_of_unchanged (hcheck : ∀ m p answer q, rule.check m p = .ok answer q → p = q)
    (htransform : ∀ m p region q, fit p → rule.Matches p m → rule.check m p = .ok true p →
      rule.transform m p = .ok region q → fit q) : rule.Pure config fit Eq where
  check _ _ hc := hcheck _ _ _ _ hc
  again _ _ hc h := by
    obtain rfl := hcheck _ _ _ _ hc
    exact h ▸ hc
  transform hp hm hc ht _ := by
    obtain rfl := hcheck _ _ _ _ hc
    exact htransform _ _ _ _ hp hm hc ht

/-- Plans that differ in what was derived count as the same for rules that ask for schemas. -/
theorem sameness_extends (hfit : Fitness fit) : Sameness fit Extends where
  wellFormed hp := (hfit.sound _ hp).wellFormed
  refl hp := .refl (hfit.sound _ hp).coherent
  trans h h' := h.trans h'
  alike h := h.alike
  fit hp h := hfit.asked _ _ hp h

/-- A check that only asks for schemas is pure. -/
theorem Rule.Behaves.pure (hfit : Fitness fit) (hb : rule.Behaves fit fault)
    (hasks : ∀ p m, fit p → rule.Matches p m → Asks p (rule.check m)) :
    rule.Pure config fit Extends where
  check hp hm hc := ((hasks _ _ hp hm _ (.refl (hfit.sound _ hp).coherent)).1 _ _ hc).1
  again hp hm hc h := ((hasks _ _ hp hm _ (.refl (hfit.sound _ hp).coherent)).1 _ _ hc).2 _ h
  transform hp hm hc ht _ :=
    (hb.transform _ _ _ _ hp hm (.refl (hfit.sound _ hp).coherent) hc).1 _ _ ht

theorem Rule.Refuses.of_same (hsame : Sameness fit same) (hpure : rule.Pure config fit same)
    (h : rule.Refuses p) (hp : fit p) (hpq : same p q) : rule.Refuses q := by
  intro m hm
  have hmp := hm.alike (hsame.alike hpq).symm
  exact hpure.again hp hmp (h m hmp) hpq

namespace Optimizer

variable {s t : Progress} {iteration : Nat}

/-! ## One attempt -/

theorem PassesOver.spec {found : List Match} (hsame : Sameness fit same)
    (hpure : rule.Pure config fit same) (h : PassesOver rule found p q) :
    fit p → (∀ m ∈ found, rule.Matches p m) →
      same p q ∧ ∀ m ∈ found, rule.check m q = .ok false q := by
  induction h with
  | done => exact fun hp _ => ⟨hsame.refl hp, by simp⟩
  | gone hgone _ _ =>
    intro hp hfound
    have hthere := (hfound _ List.mem_cons_self).nodes
    rw [hgone] at hthere
    cases hthere
  | @refused m rest p q r _ hc _ ih =>
    intro hp hfound
    obtain ⟨hm, hrest⟩ := List.forall_mem_cons.mp hfound
    have hpq := hpure.check hp hm hc
    obtain ⟨hqr, hrefused⟩ := ih (hsame.fit hp hpq) fun m' hm' =>
      (hrest m' hm').alike (hsame.alike hpq)
    exact ⟨hsame.trans hpq hqr, List.forall_mem_cons.mpr ⟨hpure.again hp hm hc hqr, hrefused⟩⟩

/-- A search of the whole plan that takes no match. -/
theorem refuses_of_none (hsame : Sameness fit same) (hpure : rule.Pure config fit same) (hp : fit p)
    (h : matchAndTransform config rule none p = .ok none q) : same p q ∧ rule.Refuses q := by
  obtain ⟨found, hfound, hrun⟩ := matchAndTransform_eq_ok.mp h
  have hpassed := transformFirst_cases config rule found p
  rw [hrun] at hpassed
  obtain ⟨hpq, hrefused⟩ := PassesOver.spec hsame hpure hpassed hp fun m hm =>
    Rule.matches_of_findMatches hfound hm
  refine ⟨hpq, fun m hm => hrefused m ?_⟩
  exact (Rule.mem_findMatches (hsame.wellFormed hp) hfound).mpr (hm.alike (hsame.alike hpq).symm)

/-- An attempt leads from a plan that is fit for the rule to another one. -/
theorem fit_of_attempt {scope region? : Option (List NodeId)} (hsame : Sameness fit same)
    (hpure : rule.Pure config fit same) (h : matchAndTransform config rule scope p = .ok region? q)
    (hp : fit p) : fit q := by
  obtain ⟨found, hfound, hrun⟩ := matchAndTransform_eq_ok.mp h
  have hcases := transformFirst_cases config rule found p
  rw [hrun] at hcases
  have hmatches := fun m hm => Rule.matches_of_findMatches (m := m) hfound hm
  cases region? with
  | none => exact hsame.fit hp (PassesOver.spec hsame hpure hcases hp hmatches).1
  | some region =>
    obtain ⟨passed, m, rest, t, rfl, hpassed, changed, hchanges, -⟩ := hcases
    obtain ⟨hpt, -⟩ := PassesOver.spec hsame hpure hpassed hp fun m' hm' =>
      hmatches m' (List.mem_append_left _ hm')
    have hm : rule.Matches t m := (hmatches m (by simp)).alike (hsame.alike hpt)
    obtain ⟨u, hc, ht⟩ := hchanges.applied
    exact hpure.transform (hsame.fit hp hpt) hm hc ht hchanges.valid

/-- So do some steps of a run. -/
theorem fit_of_steps {m m' : Moment} (hsame : Sameness fit same)
    (hpure : ∀ rule ∈ m.point.allRules, rule.Pure config fit same) (h : Steps config m m')
    (hm' : m'.point ≠ .done) (hm : fit m.progress.plan) : fit m'.progress.plan :=
  h.keeps hm' (fun rule hrule _ _ _ _ => fit_of_attempt hsame (hpure rule hrule)) hm

/-- Going through rules that are pure leads from a plan that is fit for them to another one. -/
theorem fit_of_applyRules {set : RuleSet} {changed : Bool} (hsame : Sameness fit same)
    (hpure : ∀ rule ∈ set.rules, rule.Pure config fit same)
    (h : applyRules config iteration set.rules s = .ok changed t) (hs : fit s.plan) :
    fit t.plan := by
  let r : Repetition := { set, remaining := 0, iteration, seen := [], behind := [] }
  have hsteps : Traces config ⟨.rules ⟨r, set.rules, false⟩, s⟩ (fun more => .rules ⟨r, [], more⟩)
      (applyRules config iteration set.rules s) := applyRules_traces
  rw [h] at hsteps
  refine fit_of_steps hsame (fun rule hrule => hpure rule ?_) hsteps (by simp) hs
  simpa [Point.allRules, Repetition.allRules, r] using hrule

theorem fit_of_runSets {sets : List RuleSet} {u : Unit} (hsame : Sameness fit same)
    (hpure : ∀ rule ∈ sets.flatMap RuleSet.rules, rule.Pure config fit same)
    (h : runSets config sets s = .ok u t) (hs : fit s.plan) : fit t.plan := by
  have hsteps : Traces config ⟨.between (sets ++ []), s⟩ (fun _ => .between [])
      (runSets config sets s) := runSets_traces
  rw [h, List.append_nil] at hsteps
  exact fit_of_steps (m := ⟨.between sets, s⟩) hsame hpure hsteps (by simp) hs

/-! ## The last iteration -/

/-- Applications are counted on. -/
theorem le_of_applyRepeatedly : ∀ {remaining applied n : Nat} {scope : Option (List NodeId)}
    {s : Progress}, applyRepeatedly config rule iteration remaining applied scope s = .ok n t →
      applied ≤ n := by
  intro remaining
  induction remaining with
  | zero =>
    intro applied n scope s h
    obtain ⟨rfl, -⟩ := EStateM.Result.ok.inj h
    exact Nat.le_refl _
  | succ remaining ih =>
    intro applied n scope s h
    rw [applyRepeatedly_succ] at h
    split at h
    · obtain ⟨rfl, -⟩ := EStateM.Result.ok.inj h
      exact Nat.le_refl _
    · exact Nat.le_of_succ_le (ih h)
    · split at h
      · obtain ⟨rfl, -⟩ := EStateM.Result.ok.inj h
        exact Nat.le_refl _
      · cases h

/-- A rule that was not applied, and for which no ceiling was hit, failed or refuses every match. -/
theorem refuses_of_applyRule (hsame : Sameness fit same) (hpure : rule.Pure config fit same)
    (hs : fit s.plan) (h : applyRule config rule iteration s = .ok 0 t)
    (hquiet : t.report.hitCeiling = false) : same s.plan t.plan ∧
      (rule.name ∉ t.report.disabledRules → rule.Refuses t.plan) := by
  unfold applyRule at h
  obtain ⟨_, u, hroot, h⟩ := Pass.bind_eq_ok.mp h
  obtain ⟨root, hroot⟩ := Pass.discard_eq_ok.mp hroot
  obtain ⟨-, rfl⟩ := onPlan_ofResult_eq_ok.mp hroot
  cases hmax : config.maxIterations with
  | zero =>
    -- the ceiling is hit at once
    rw [hmax] at h
    obtain ⟨-, rfl⟩ := EStateM.Result.ok.inj h
    cases hquiet
  | succ remaining =>
    rw [hmax, applyRepeatedly_succ] at h
    split at h
    · rename_i q hscan
      obtain ⟨-, rfl⟩ := EStateM.Result.ok.inj h
      obtain ⟨hsq, hrefuses⟩ := refuses_of_none hsame hpure hs hscan
      exact ⟨hsq, fun _ => hrefuses⟩
    · have := le_of_applyRepeatedly h
      omega
    · split at h
      · obtain ⟨-, rfl⟩ := EStateM.Result.ok.inj h
        exact ⟨hsame.refl hs, fun hused => absurd (Report.mem_disable.mpr (.inl rfl)) hused⟩
      · cases h

/-- An iteration that changed nothing looked at every rule in use. -/
theorem refuses_of_applyRules (hsame : Sameness fit same) : ∀ {rules : List Rule} {s : Progress},
    (∀ rule ∈ rules, rule.Pure config fit same) → fit s.plan →
    applyRules config iteration rules s = .ok false t → t.report.hitCeiling = false →
    same s.plan t.plan ∧ ∀ rule ∈ rules, config.isDisabled rule.name = false →
      rule.name ∉ t.report.disabledRules → rule.Refuses t.plan := by
  intro rules
  induction rules with
  | nil =>
    intro s _ hs h _
    obtain rfl : s = t := by simpa [applyRules] using h
    exact ⟨hsame.refl hs, by simp⟩
  | cons rule rest ih =>
    intro s hpure hs h hquiet
    obtain ⟨hrule, hrest⟩ := List.forall_mem_cons.mp hpure
    unfold applyRules at h
    rw [Pass.bind_of_ok Pass.get_apply] at h
    split at h
    · rename_i hskip
      obtain ⟨hst, hrefuses⟩ := ih hrest hs h hquiet
      refine ⟨hst, List.forall_mem_cons.mpr ⟨fun hconfig hused => ?_, hrefuses⟩⟩
      rcases (Bool.or_eq_true _ _).mp hskip with hc | hd
      · rw [hconfig] at hc
        cases hc
      · exact absurd ((Grows.applyRules rest).le h |>.disabledRules (List.contains_iff_mem.mp hd))
          hused
    · obtain ⟨n, u, hone, h⟩ := Pass.bind_eq_ok.mp h
      obtain ⟨more, v, hmore, h⟩ := Pass.bind_eq_ok.mp h
      obtain ⟨hnone, rfl⟩ : (decide (n > 0) || more) = false ∧ v = t := by simpa using h
      obtain ⟨hn, rfl⟩ := Bool.or_eq_false_iff.mp hnone
      obtain rfl : n = 0 := by simpa using hn
      have hle := (Grows.applyRules rest).le hmore
      have hquiet₁ : u.report.hitCeiling = false := by
        by_contra hceiling
        rw [hle.hitCeiling (by simpa using hceiling)] at hquiet
        cases hquiet
      obtain ⟨hsu, hfirst⟩ := refuses_of_applyRule hsame hrule hs hone hquiet₁
      obtain ⟨hut, hrefuses⟩ := ih hrest (hsame.fit hs hsu) hmore hquiet
      refine ⟨hsame.trans hsu hut, List.forall_mem_cons.mpr ⟨fun _ hused => ?_, hrefuses⟩⟩
      exact (hfirst fun hd => hused (hle.disabledRules hd)).of_same hsame hrule
        (hsame.fit hs hsu) hut

/-! ## Rule sets -/

theorem eq_of_fingerprint {d : Digest} (h : fingerprint s = .ok d t) : s = t :=
  (fingerprint_eq_ok.mp h).2

/-- Each rule of the set that is in use refuses all of its matches. -/
def Settled (config : Config) (set : RuleSet) (t : Progress) : Prop :=
  ∀ rule ∈ set.rules, config.isDisabled rule.name = false → rule.name ∉ t.report.disabledRules →
    rule.Refuses t.plan

theorem settled_of_repeatSet {set : RuleSet} (hsame : Sameness fit same)
    (hpure : ∀ rule ∈ set.rules, rule.Pure config fit same) : ∀ {remaining iteration : Nat}
    {seen : List Digest} {s : Progress} {u : Unit}, fit s.plan →
    repeatSet config set remaining iteration seen s = .ok u t → t.report.hitCeiling = false →
    revisited set ∉ t.report.warnings → Settled config set t := by
  intro remaining
  induction remaining with
  | zero =>
    intro iteration seen s u _ h hquiet _
    obtain ⟨-, rfl⟩ := EStateM.Result.ok.inj h
    cases hquiet
  | succ remaining ih =>
    intro iteration seen s u hs h hquiet hnew
    unfold repeatSet at h
    obtain ⟨_, s₁, hnote, h⟩ := Pass.bind_eq_ok.mp h
    obtain ⟨-, hs₁⟩ := EStateM.Result.ok.inj hnote
    have hfit : fit s₁.plan := hs₁ ▸ hs
    obtain ⟨changed, s₂, hone, h⟩ := Pass.bind_eq_ok.mp h
    cases changed with
    | false =>
      obtain ⟨-, rfl⟩ := EStateM.Result.ok.inj h
      exact (refuses_of_applyRules hsame hpure hfit hone hquiet).2
    | true =>
      have hs₂ := fit_of_applyRules hsame hpure hone hfit
      rw [if_pos rfl] at h
      obtain ⟨now, s₃, hnow, h⟩ := Pass.bind_eq_ok.mp h
      obtain rfl := eq_of_fingerprint hnow
      split at h
      · obtain ⟨-, rfl⟩ := EStateM.Result.ok.inj h
        exact absurd (List.mem_append_right _ (by simp [revisited])) hnew
      · exact ih hs₂ h hquiet hnew

theorem runSets_cons_eq_ok {set : RuleSet} {rest : List RuleSet} {u : Unit} :
    runSets config (set :: rest) s = .ok u t ↔ ∃ d t', s.plan.fingerprint = .ok d ∧
      repeatSet config set config.maxIterations 1 [d] s = .ok () t' ∧
      runSets config rest t' = .ok u t := by
  rw [runSets]
  constructor
  · intro h
    obtain ⟨d, s', hbegin, h⟩ := Pass.bind_eq_ok.mp h
    obtain ⟨hd, rfl⟩ := fingerprint_eq_ok.mp hbegin
    obtain ⟨_, t', hrepeat, h⟩ := Pass.bind_eq_ok.mp h
    exact ⟨d, t', hd, hrepeat, h⟩
  · rintro ⟨d, t', hd, hrepeat, h⟩
    rw [Pass.bind_of_ok (fingerprint_eq_ok.mpr ⟨hd, rfl⟩), Pass.bind_of_ok hrepeat]
    exact h

theorem runSets_append : ∀ {before : List RuleSet} {s : Progress} (behind : List RuleSet),
    runSets config (before ++ behind) s =
      (runSets config before >>= fun _ => runSets config behind) s := by
  intro before
  induction before with
  | nil => exact fun _ => rfl
  | cons set before ih =>
    intro s behind
    rw [List.cons_append, runSets, runSets]
    simp only [bind_assoc]
    refine Pass.bind_congr rfl fun d t _ => Pass.bind_congr rfl fun _ u _ => ?_
    exact ih behind

variable {o : Optimizer} {p : Plan} {q : Plan} {report : Report}

/-- Whatever the rescan policy: if the optimizer succeeds without hitting a ceiling and without
coming back to an earlier plan, then at the moment each rule set was left, every rule of it that
neither the settings nor a failure had taken out of use refused all its matches in the whole
plan. -/
theorem settled_of_quiet (hsame : Sameness fit same)
    (hpure : ∀ rule ∈ o.allRules, rule.Pure o.config fit same) (hp : fit p)
    (hrun : o.optimize p = .ok report q) (hquiet : report.hitCeiling = false)
    (hnew : ∀ set ∈ o.sets, revisited set ∉ report.warnings) :
    ∀ before set behind, o.sets = before ++ set :: behind →
      ∃ t, runSets o.config (before ++ [set]) { plan := p } = .ok () t ∧
        Settled o.config set t := by
  intro before set behind hsets
  obtain ⟨-, -, last, hlast, hfinish⟩ := optimize_eq_ok.mp hrun
  rw [hsets, show before ++ set :: behind = (before ++ [set]) ++ behind by simp, runSets_append]
    at hlast
  obtain ⟨_, t, ht, hbehind⟩ := Pass.bind_eq_ok.mp hlast
  refine ⟨t, ht, ?_⟩
  -- what was not noted at the end was not noted when the set was left
  have hle := ((Grows.runSets behind).le hbehind).trans (Grows.finish.le hfinish)
  have hquiet' : t.report.hitCeiling = false := by
    by_contra hceiling
    have := hle.hitCeiling (by simpa using hceiling)
    rw [show report.hitCeiling = false from hquiet] at this
    cases this
  have hnew' : revisited set ∉ t.report.warnings := fun h =>
    hnew set (by simp [hsets]) (hle.warnings h)
  -- and when it was entered, the plan was fit
  rw [runSets_append] at ht
  obtain ⟨_, s, hs, hset⟩ := Pass.bind_eq_ok.mp ht
  have hbefore : ∀ rule ∈ before.flatMap RuleSet.rules, rule.Pure o.config fit same := by
    intro rule hrule
    refine hpure rule ?_
    rw [allRules, hsets, List.flatMap_append]
    exact List.mem_append_left _ hrule
  have hfit : fit s.plan := fit_of_runSets hsame hbefore hs hp
  unfold runSets at hset
  obtain ⟨d, s', hd, hset⟩ := Pass.bind_eq_ok.mp hset
  obtain rfl := eq_of_fingerprint hd
  obtain ⟨_, t', hrepeat, hset⟩ := Pass.bind_eq_ok.mp hset
  obtain ⟨-, rfl⟩ := EStateM.Result.ok.inj hset
  refine settled_of_repeatSet hsame (fun rule hrule => ?_) hfit hrepeat hquiet' hnew'
  exact hpure rule (List.mem_flatMap.mpr ⟨set, by simp [hsets], hrule⟩)

end Optimizer

/-! ## Rules for filters -/

namespace Rule

theorem mergeFilter_pure : mergeFilter.Pure config CanMerge Extends := by
  refine mergeFilter_behaves.pure fitness_canMerge fun p m hp hm => ?_
  obtain ⟨u, w, rest, nu, nw, f, g, hmu, -⟩ := mergeFilter_matches hm
  have hready := hp.sound.ready hp.valid
  unfold mergeFilter
  dsimp only
  rw [hmu]
  refine .read (fun q hq => ?_) (.pure hready)
  unfold Plan.successors
  simp only [hq.alike.successors]

theorem filterAboveForEach_pure : filterAboveForEach.Pure config CanMerge Extends := by
  refine filterAboveForEach_behaves.pure fitness_canMerge fun p m hp hm => ?_
  obtain ⟨F, hF, -⟩ := filterAboveForEach_matches hm
  have hready := hp.sound.ready hp.valid
  unfold filterAboveForEach
  dsimp only
  rw [hF]
  refine (Asks.eligibleFilter hready).bind fun _ _ _ _ _ => ?_
  exact .pure hready

end Rule

namespace Optimizer

/-- Adjacent filters are merged, and nothing else is done. -/
def merging : Optimizer where
  config := { pruneMapKeys := false }
  sets := [⟨"merge", [Rule.mergeFilter]⟩]

/-- Two filters, of which the second has two filters for outputs. -/
def forkedFilters : AdmittedPlan := .make (do
  let kept : Operator := { operation := .filter (.constant (.boolean true)) }
  let load ← append { operation := .load { location := "/in" } } []
  let lower ← append kept [← append kept [load]]
  discard (append kept [lower])
  append kept [lower]) (by decide +kernel)

/-- Once the first two filters are one, it is refused to merge the others with it. -/
theorem merging_settled : ∃ report q t, merging.optimize forkedFilters.plan = .ok report q ∧
    report.applications = [("MergeFilter", 1)] ∧
    runSets merging.config merging.sets { plan := forkedFilters.plan } = .ok () t ∧
    ∀ set ∈ merging.sets, Settled merging.config set t := by
  have hruns : (Pass.result? merging.optimize forkedFilters.plan).map
      (fun r => (r.applications, r.hitCeiling, r.warnings)) =
        some ([("MergeFilter", 1)], false, []) := by decide +kernel
  obtain ⟨report, hreport, hnotes⟩ := Option.map_eq_some_iff.mp hruns
  obtain ⟨happlied, hnotes⟩ := Prod.mk.inj hnotes
  obtain ⟨hquiet, hwarnings⟩ := Prod.mk.inj hnotes
  have hrun := Pass.eq_ok_after hreport
  have hp : forkedFilters.plan.CanMerge := (forkedFilters.hasRoom.canSplit forkedFilters.sound
    ((validate_eq_ok forkedFilters.sound.wellFormed forkedFilters.sound.formulas).mp
      forkedFilters.valid)).canMerge
  have hpure : ∀ rule ∈ merging.allRules, rule.Pure merging.config CanMerge Extends := by
    intro rule hrule
    obtain rfl : rule = Rule.mergeFilter := by simpa [allRules, merging] using hrule
    exact Rule.mergeFilter_pure
  obtain ⟨t, ht, hsettled⟩ := settled_of_quiet (sameness_extends fitness_canMerge) hpure hp hrun
    hquiet (by simp [hwarnings]) [] _ [] rfl
  refine ⟨report, _, t, hrun, happlied, ht, fun set hset => ?_⟩
  obtain rfl := List.mem_singleton.mp hset
  exact hsettled

end Optimizer

end Dataflow

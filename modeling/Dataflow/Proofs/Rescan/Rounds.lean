import Dataflow.Proofs.Plan.Lineage
import Dataflow.Proofs.Rewrite.Opportunities
import Mathlib.Logic.Function.Iterate

/-!
# One rule at work

A rule set of a single rule is a sequence of attempts to apply it, each in the whole plan or in the
region that the last application changed. What every attempt keeps holds in the end, whichever
scopes the settings choose, and the report has counted the applications (`Rounds.of_repeatSet`).
-/

namespace Dataflow

/-- What is looked at after a change of these operators. -/
theorem Region.mem_withNeighbors {ids : List NodeId} {x : NodeId} {q : Plan} :
    x ∈ (Region.ofList ids).withNeighbors q ↔
      ∃ id ∈ ids, q.graph.contains id = true ∧ (x ∈ q.graph.predecessors id ∨ x = id) := by
  have hfirsts : ∀ {xs : List NodeId} {y}, y ∈ Operator.firsts xs ↔ y ∈ xs := fun {xs y} =>
    ⟨Operator.mem_of_mem_firsts, Operator.mem_firsts⟩
  unfold Region.withNeighbors Region.ofList
  simp only [hfirsts, List.mem_flatMap, List.mem_filter, List.mem_append, List.mem_singleton]
  simp only [and_assoc]
  rfl

namespace Optimizer

open Plan

variable {config : Config} {rule : Rule} {P : Nat → Option (List NodeId) → Plan → Prop}
  {s t : Progress}
  {base : List (String × Nat)} {iteration n k : Nat}

/-- A property of how often the rule was applied, of the scope of the next attempt and of the plan,
which every attempt keeps. After an application the next attempt may look at the whole plan or at
the changed region. -/
structure Rounds (config : Config) (rule : Rule) (P : Nat → Option (List NodeId) → Plan → Prop) :
    Prop where
  refused : ∀ {n scope p q}, P n scope p → matchAndTransform config rule scope p = .ok none q →
    P n none q
  applied : ∀ {n scope p region q}, P n scope p →
    matchAndTransform config rule scope p = .ok (some region) q →
    P (n + 1) none q ∧ P (n + 1) (some region) q

/-- The rule was applied so often since the report counted `base`, and the property holds of the
plan, whatever is looked at next. -/
structure Rounds.Reached (rule : Rule) (P : Nat → Option (List NodeId) → Plan → Prop)
    (base : List (String × Nat)) (n : Nat) (scope : Option (List NodeId))
    (s : Progress) : Prop where
  holds : P n scope s.plan
  counted : s.report.applications = (Report.count rule.name)^[n] base

namespace Rounds

/-- A sequence of attempts in which nothing goes wrong. -/
theorem of_applyRepeatedly (h : Rounds config rule P) : ∀ {remaining applied : Nat}
    {scope : Option (List NodeId)} {n : Nat} {s : Progress}, Reached rule P base n scope s →
    applyRepeatedly config rule iteration remaining applied scope s = .ok k t → t.report.Quiet →
    ∃ n', Reached rule P base n' none t := by
  intro remaining
  induction remaining with
  | zero =>
    intro applied scope n s _ hrun hquiet
    obtain ⟨-, rfl⟩ := EStateM.Result.ok.inj hrun
    cases hquiet.hitCeiling
  | succ remaining ih =>
    intro applied scope n s hs hrun hquiet
    rw [applyRepeatedly_succ] at hrun
    split at hrun
    · rename_i q hone
      obtain ⟨-, rfl⟩ := EStateM.Result.ok.inj hrun
      exact ⟨n, h.refused hs.holds hone, hs.counted⟩
    · rename_i region q hone
      obtain ⟨hwhole, hregion⟩ := h.applied hs.holds hone
      refine ih (n := n + 1) ⟨?_, ?_⟩ hrun hquiet
      · dsimp only
        split
        · exact hregion
        · exact hwhole
      · rw [Function.iterate_succ_apply', ← hs.counted]
        rfl
    · split at hrun
      · obtain ⟨-, rfl⟩ := EStateM.Result.ok.inj hrun
        exact absurd hquiet.disabledRules
          (List.ne_nil_of_mem (Report.mem_disable.mpr (.inl rfl)))
      · cases hrun

/-- What a rule set of one rule comes to in which nothing goes wrong. -/
theorem of_repeatSet (h : Rounds config rule P) (henabled : config.isDisabled rule.name = false)
    {name : String} : ∀ {remaining iteration : Nat} {seen : List Digest} {n : Nat} {s : Progress}
    {u : Unit}, Reached rule P base n none s →
    repeatSet config ⟨name, [rule]⟩ remaining iteration seen s = .ok u t → t.report.Quiet →
    ∃ n', Reached rule P base n' none t := by
  intro remaining
  induction remaining with
  | zero =>
    intro iteration seen n s u _ hrun hquiet
    obtain ⟨-, rfl⟩ := EStateM.Result.ok.inj hrun
    cases hquiet.hitCeiling
  | succ remaining ih =>
    intro iteration seen n s u hs hrun hquiet
    have hle := (Grows.repeatSet _ _ _).le hrun
    unfold repeatSet at hrun
    obtain ⟨_, s₁, hnote, hrun⟩ := Pass.bind_eq_ok.mp hrun
    obtain ⟨-, rfl⟩ := EStateM.Result.ok.inj hnote
    obtain ⟨changed, s₂, hone, hrun⟩ := Pass.bind_eq_ok.mp hrun
    -- a turn of the only rule, which is in use
    have hturn : s₂.report.Quiet → ∃ n', Reached rule P base n' none s₂ := by
      intro hquiet₂
      have hused : ({ s with report.iterations := s.report.iterations + 1 } :
          Progress).report.disabledRules.contains rule.name = false := by
        rw [show ({ s with report.iterations := s.report.iterations + 1 } :
          Progress).report.disabledRules = s.report.disabledRules from rfl,
          (hle.quiet hquiet).disabledRules]
        rfl
      unfold applyRules at hone
      rw [Pass.bind_of_ok Pass.get_apply, henabled, hused] at hone
      obtain ⟨k, s₃, hrule, hone⟩ := Pass.bind_eq_ok.mp hone
      obtain ⟨-, rfl⟩ : decide (k > 0) = changed ∧ s₃ = s₂ := by
        simpa [applyRules] using hone
      unfold applyRule at hrule
      obtain ⟨_, s₄, hroot, hrule⟩ := Pass.bind_eq_ok.mp hrule
      obtain ⟨root, hroot⟩ := Pass.discard_eq_ok.mp hroot
      obtain ⟨-, rfl⟩ := onPlan_ofResult_eq_ok.mp hroot
      exact h.of_applyRepeatedly (s := { s with
        report.iterations := s.report.iterations + 1 }) ⟨hs.holds, hs.counted⟩ hrule hquiet₂
    split at hrun
    · obtain ⟨now, s₅, hnow, hrun⟩ := Pass.bind_eq_ok.mp hrun
      obtain rfl := eq_of_fingerprint hnow
      split at hrun
      · obtain ⟨-, rfl⟩ := EStateM.Result.ok.inj hrun
        exact absurd hquiet.warnings (by simp [Report.warn])
      · obtain ⟨n', hs'⟩ := hturn (((Grows.repeatSet _ _ _).le hrun).quiet hquiet)
        exact ih hs' hrun hquiet
    · obtain ⟨-, rfl⟩ := EStateM.Result.ok.inj hrun
      exact hturn hquiet

end Rounds

/-- A rule that is not in use changes nothing. -/
theorem repeatSet_of_disabled {name : String} {remaining iteration : Nat} {seen : List Digest}
    {u : Unit} (hdisabled : config.isDisabled rule.name = true)
    (hrun : repeatSet config ⟨name, [rule]⟩ remaining iteration seen s = .ok u t)
    (hquiet : t.report.Quiet) :
    t.plan = s.plan ∧ t.report.applications = s.report.applications := by
  cases remaining with
  | zero =>
    obtain ⟨-, rfl⟩ := EStateM.Result.ok.inj hrun
    cases hquiet.hitCeiling
  | succ remaining =>
    unfold repeatSet at hrun
    obtain ⟨_, s₁, hnote, hrun⟩ := Pass.bind_eq_ok.mp hrun
    obtain ⟨-, rfl⟩ := EStateM.Result.ok.inj hnote
    obtain ⟨changed, s₂, hone, hrun⟩ := Pass.bind_eq_ok.mp hrun
    unfold applyRules at hone
    rw [Pass.bind_of_ok Pass.get_apply, hdisabled] at hone
    obtain ⟨rfl, rfl⟩ : false = changed ∧ _ = s₂ := by simpa [applyRules] using hone
    obtain ⟨-, rfl⟩ := EStateM.Result.ok.inj hrun
    exact ⟨rfl, rfl⟩

/-! ## One attempt -/

/-- The keys at which a search looks for matches, in turn. -/
def searched (scope : Option (List NodeId)) (order : List NodeId) : List NodeId :=
  match scope with
  | some ids => order.filter (ids.contains ·)
  | none => order

/-- Where one of the matches was found. -/
theorem exists_anchor {pattern : Pattern} {p : Plan} {m : Match} {rest : List Match} :
    ∀ {ids : List NodeId} {passed : List Match},
      pattern.matchesAt p ids = .ok (passed ++ m :: rest) → ∃ before b behind,
        ids = before ++ b :: behind ∧ pattern.matchesAt p before = .ok passed ∧
          pattern.matchAt p b = .ok (some m) ∧ pattern.matchesAt p behind = .ok rest := by
  intro ids
  induction ids with
  | nil =>
    intro passed h
    cases passed <;> cases h
  | cons x ids ih =>
    intro passed h
    unfold Pattern.matchesAt at h
    obtain ⟨m?, hm?, h⟩ := Pass.except_bind_eq_ok.mp h
    cases m? with
    | none =>
      obtain ⟨before, b, behind, rfl, hbefore, hb, hbehind⟩ := ih h
      refine ⟨x :: before, b, behind, rfl, ?_, hb, hbehind⟩
      rw [Pattern.matchesAt, hm?]
      exact hbefore
    | some m' =>
      obtain ⟨found, hfound, h⟩ := Pass.except_bind_eq_ok.mp h
      have h := Except.ok.inj h
      cases passed with
      | nil =>
        obtain ⟨rfl, rfl⟩ := List.cons.inj h
        exact ⟨[], x, ids, rfl, rfl, hm?, hfound⟩
      | cons _ passed =>
        obtain ⟨rfl, rfl⟩ := List.cons.inj h
        obtain ⟨before, b, behind, rfl, hbefore, hb, hbehind⟩ := ih hfound
        refine ⟨x :: before, b, behind, rfl, ?_, hb, hbehind⟩
        rw [Pattern.matchesAt, hm?, Pass.except_ok_bind, hbefore]
        rfl

/-- What leads to an operator is looked at before it, if it is looked at. -/
theorem mem_before {p : Plan} {order before behind : List NodeId} {scope : Option (List NodeId)}
    {x y : NodeId} (horder : p.graph.Ordered order)
    (heq : searched scope order = before ++ y :: behind) (hx : x ∈ p.graph.predecessors y)
    (hscope : ∀ ids, scope = some ids → x ∈ ids) : x ∈ before := by
  cases scope with
  | none => exact horder before y behind heq x hx
  | some ids =>
    obtain ⟨above, below, rfl, rfl, hbelow⟩ := List.filter_eq_append_iff.mp heq
    obtain ⟨skipped, below, rfl, hskipped, -, -⟩ := List.filter_eq_cons_iff.mp hbelow
    have hmem := horder (above ++ skipped) y below (by simp) x hx
    rcases List.mem_append.mp hmem with hmem | hmem
    · exact List.mem_filter.mpr ⟨hmem, by simpa using hscope ids rfl⟩
    · exact absurd (by simpa using hscope ids rfl) (hskipped x hmem)

/-- What is passed over before a match includes the matches right in front of it, as far as they are
in the scope. -/
theorem mem_passed {p : Plan} {scope : Option (List NodeId)} {passed rest : List Match}
    {m : Match} {pattern : Pattern} (hwf : p.graph.WellFormed)
    (hpattern : rule.pattern = .ok pattern)
    (h : rule.findMatches p scope = .ok (passed ++ m :: rest)) :
    ∃ b, pattern.matchAt p b = .ok (some m) ∧
      (∀ ids, scope = some ids → b ∈ ids) ∧ ∀ x ∈ p.graph.predecessors b,
        (∀ ids, scope = some ids → x ∈ ids) →
        ∀ m', pattern.matchAt p x = .ok (some m') → m' ∈ passed := by
  unfold Rule.findMatches at h
  rw [hpattern] at h
  obtain ⟨_, h₀, h⟩ := Pass.except_bind_eq_ok.mp h
  obtain rfl := Except.ok.inj h₀
  obtain ⟨-, -, h⟩ := Pass.except_bind_eq_ok.mp h
  obtain ⟨order, horder, h⟩ := Pass.except_bind_eq_ok.mp h
  obtain ⟨-, -, hord⟩ := Graph.topologicalOrder_spec hwf (Graph.orError_eq_ok.mp horder)
  obtain ⟨before, b, behind, heq, hbefore, hb, -⟩ := exists_anchor h
  change searched scope order = _ at heq
  refine ⟨b, hb, fun ids hids => ?_, fun x hx hscope m' hm' => ?_⟩
  · have hmem : b ∈ searched scope order := by rw [heq]; simp
    subst hids
    simpa using (List.mem_filter.mp hmem).2
  · exact (Pattern.mem_matchesAt hbefore).mpr ⟨x, mem_before hord heq hx hscope, hm'⟩

/-- An attempt that finds nothing, where checks change nothing. -/
theorem eq_of_refused {fit : Plan → Prop} {scope : Option (List NodeId)} {p q : Plan}
    (hsame : Sameness fit Eq) (hpure : rule.Pure config fit Eq) (hp : fit p)
    (h : matchAndTransform config rule scope p = .ok none q) : p = q := by
  obtain ⟨found, hfound, hrun⟩ := matchAndTransform_eq_ok.mp h
  have hpassed := transformFirst_cases config rule found p
  rw [hrun] at hpassed
  exact (PassesOver.spec hsame hpure hpassed hp fun m hm =>
    Rule.matches_of_findMatches hfound hm).1

/-- An attempt that changes the plan, where checks do not: it takes the first match that is not
refused. -/
theorem exists_taken {fit : Plan → Prop} {scope : Option (List NodeId)} {ids : List NodeId}
    {p q : Plan}
    (hsame : Sameness fit Eq) (hpure : rule.Pure config fit Eq) (hp : fit p)
    (h : matchAndTransform config rule scope p = .ok (some ids) q) : ∃ passed m rest region,
      rule.findMatches p scope = .ok (passed ++ m :: rest) ∧
      (∀ m ∈ passed, rule.check m p = .ok false p) ∧ rule.Matches p m ∧
      rule.check m p = .ok true p ∧ rule.transform m p = .ok region q ∧
      ids = region.withNeighbors q := by
  obtain ⟨found, hfound, hrun⟩ := matchAndTransform_eq_ok.mp h
  have hcases := transformFirst_cases config rule found p
  rw [hrun] at hcases
  obtain ⟨passed, m, rest, t, rfl, hpassed, region, hchanges, rfl⟩ := hcases
  obtain ⟨rfl, hrefused⟩ := PassesOver.spec hsame hpure hpassed hp fun m' hm' =>
    Rule.matches_of_findMatches hfound (List.mem_append_left _ hm')
  obtain ⟨u, hc, ht⟩ := hchanges.applied
  have hm : rule.Matches p m := Rule.matches_of_findMatches hfound (by simp)
  obtain rfl := hpure.check hp hm hc
  exact ⟨passed, m, rest, region, hfound, hrefused, hm, hc, ht, rfl⟩

end Optimizer

end Dataflow

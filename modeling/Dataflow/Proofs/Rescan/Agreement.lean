import Dataflow.Proofs.Rescan.Merging
import Dataflow.Proofs.Rescan.Pruning
import Dataflow.Proofs.Rescan.Pushdown
import Dataflow.Proofs.Rescan.Splitting

/-!
# The region that is looked at makes no difference

After a rule was applied, matches are looked for in the whole plan or only around the change. That
decides in which order the rules are applied in parts of the plan that have nothing to do with each
other, and which keys new filters get. Where neither run warns of anything, both go on until no rule
finds anything, and so they apply each of the default rules equally often and end with the same plan
but for keys (`rescan_agrees`).
-/

namespace Dataflow

open Dataflow.Graph Plan Dataflow.Flow

namespace Optimizer

variable {config config' : Config} {s s' t t' : Progress} {p q q' : Plan} {u u' : Unit} {n : Nat}
  {Fit : Plan → Prop} {name : String} {remaining iteration : Nat} {seen seen' : List Digest}

/-- Two runs have come to plans that differ in the keys of their filters only, and have applied the
rules equally often. -/
structure Agree (Fit : Plan → Prop) (s s' : Progress) : Prop where
  fit : Fit s.plan
  fit' : Fit s'.plan
  counterparts : ∃ φ, Counterparts φ s.plan s'.plan
  applications : s'.report.applications = s.report.applications

/-- The settings differ in what is looked at again, if at all. -/
def SameButRescan (config config' : Config) : Prop :=
  config' = { config with rescan := config'.rescan }

theorem SameButRescan.isDisabled (h : SameButRescan config config') (name : String) :
    config'.isDisabled name = config.isDisabled name := by
  rw [h]
  rfl

/-- A rule set of one rule in both runs. -/
structure Both (config config' : Config) (rule : Rule) (s s' t t' : Progress) : Prop where
  settings : SameButRescan config config'
  first : ∃ name remaining iteration seen u,
    repeatSet config ⟨name, [rule]⟩ remaining iteration seen s = .ok u t
  second : ∃ name remaining iteration seen u,
    repeatSet config' ⟨name, [rule]⟩ remaining iteration seen s' = .ok u t'
  quiet : t.report.Quiet
  quiet' : t'.report.Quiet

/-- A rule that is not in use makes no difference. -/
theorem Agree.disabled {rule : Rule} (h : Agree Fit s s')
    (hruns : Both config config' rule s s' t t')
    (hdisabled : config.isDisabled rule.name = true) : Agree Fit t t' := by
  obtain ⟨_, _, _, _, _, hrun⟩ := hruns.first
  obtain ⟨_, _, _, _, _, hrun'⟩ := hruns.second
  obtain ⟨hplan, hcount⟩ := repeatSet_of_disabled hdisabled hrun hruns.quiet
  obtain ⟨hplan', hcount'⟩ := repeatSet_of_disabled
    ((hruns.settings.isDisabled _).trans hdisabled) hrun' hruns.quiet'
  exact ⟨hplan ▸ h.fit, hplan' ▸ h.fit', by rw [hplan, hplan']; exact h.counterparts, by
    rw [hcount, hcount', h.applications]⟩

theorem Agree.split (h : Agree CanSplit s s')
    (hruns : Both config config' Rule.splitFilter s s' t t') : Agree CanSplit t t' := by
  by_cases hdisabled : config.isDisabled Rule.splitFilter.name = true
  · exact h.disabled hruns hdisabled
  rw [Bool.not_eq_true] at hdisabled
  obtain ⟨_, _, _, _, _, hrun⟩ := hruns.first
  obtain ⟨_, _, _, _, _, hrun'⟩ := hruns.second
  obtain ⟨φ, hφ⟩ := h.counterparts
  obtain ⟨n, hto, hend, hcount⟩ := splitTo_of_repeatSet h.fit hdisabled hrun hruns.quiet
  obtain ⟨n', hto', hend', hcount'⟩ := splitTo_of_repeatSet h.fit'
    ((hruns.settings.isDisabled _).trans hdisabled) hrun' hruns.quiet'
  obtain ⟨ht, htakes⟩ := hto.takes
  obtain ⟨ht', htakes'⟩ := hto'.takes
  have hsame : SameNet ⟨s.plan, h.fit⟩ ⟨s'.plan, h.fit'⟩ := ⟨φ, hφ.renames⟩
  obtain ⟨rfl, ψ, hψ⟩ := confluent_splits.ends_alike hsame htakes (hend ht) htakes' (hend' ht')
  obtain ⟨W, hW, hW'⟩ := hφ.flow
  refine ⟨ht, ht', ⟨ψ, ht.sound, ht.valid, ht'.sound, ht'.valid, hψ, ?_, W, hto.flow W hW,
    hto'.flow W hW'⟩, by rw [hcount, hcount', h.applications]⟩
  rw [hto'.sources, hto.sources, hφ.sources]

theorem Agree.move (h : Agree CanMerge s s')
    (hruns : Both config config' Rule.filterAboveForEach s s' t t') : Agree CanMerge t t' := by
  by_cases hdisabled : config.isDisabled Rule.filterAboveForEach.name = true
  · exact h.disabled hruns hdisabled
  rw [Bool.not_eq_true] at hdisabled
  obtain ⟨_, _, _, _, _, hrun⟩ := hruns.first
  obtain ⟨_, _, _, _, _, hrun'⟩ := hruns.second
  obtain ⟨φ, hφ⟩ := h.counterparts
  obtain ⟨W, hW, hW'⟩ := hφ.flow
  -- both runs ask for schemas in the same order
  obtain ⟨L, hL⟩ := exists_agenda hφ.sound.wellFormed hφ.valid.acyclic
  obtain ⟨rank, hwithin⟩ := hW.within hφ.sound hφ.valid
  have htracks : Tracks s.plan.size rank s.plan W fun _ => none :=
    ⟨h.fit, hW, holds_none, hwithin, Nat.le_refl _⟩
  have htracks' : Tracks s.plan.size rank s'.plan W fun _ => none :=
    ⟨h.fit', hW', holds_none, hwithin, Nat.le_of_eq hφ.size_eq⟩
  obtain ⟨k, hto, ht, hflow, hend, hcount⟩ :=
    movedTo_of_repeatSet htracks hL hdisabled hrun hruns.quiet
  obtain ⟨k', hto', ht', hflow', hend', hcount'⟩ :=
    movedTo_of_repeatSet htracks' (hL.counterpart hφ)
      ((hruns.settings.isDisabled _).trans hdisabled) hrun' hruns.quiet'
  obtain ⟨rfl, ψ, hψ⟩ := (Net.confluent_moves _).ends_alike ⟨φ, hφ.renames⟩ hto.takes hend
    hto'.takes hend'
  refine ⟨ht, ht', ⟨ψ, ht.sound, ht.valid, ht'.sound, ht'.valid, hψ, ?_, _, hflow, hflow'⟩,
    by rw [hcount, hcount', h.applications]⟩
  rw [hto'.sources, hto.sources, hφ.sources]

theorem Agree.merge (h : Agree CanMerge s s')
    (hruns : Both config config' Rule.mergeFilter s s' t t') : Agree CanMerge t t' := by
  by_cases hdisabled : config.isDisabled Rule.mergeFilter.name = true
  · exact h.disabled hruns hdisabled
  rw [Bool.not_eq_true] at hdisabled
  obtain ⟨_, _, _, _, _, hrun⟩ := hruns.first
  obtain ⟨_, _, _, _, _, hrun'⟩ := hruns.second
  obtain ⟨φ, hφ⟩ := h.counterparts
  obtain ⟨W, hW, hW'⟩ := hφ.flow
  obtain ⟨n, hto, hend, hcount⟩ := mergedTo_of_repeatSet h.fit hdisabled hrun hruns.quiet
  obtain ⟨n', hto', hend', hcount'⟩ := mergedTo_of_repeatSet h.fit'
    ((hruns.settings.isDisabled _).trans hdisabled) hrun' hruns.quiet'
  obtain ⟨rfl, ψ, hψ⟩ := Net.confluent_merges.ends_alike ⟨φ, hφ.renames⟩ hto.takes hend
    hto'.takes hend'
  have ht := hto.fit
  have ht' := hto'.fit
  refine ⟨ht, ht', ⟨ψ, ht.sound, ht.valid, ht'.sound, ht'.valid, hψ, ?_, W, hto.flow W hW,
    hto'.flow W hW'⟩, by rw [hcount, hcount', h.applications]⟩
  rw [hto'.sources, hto.sources, hφ.sources]

/-- The default rule sets in both runs. -/
theorem Agree.runSets (h : Agree CanSplit s s') (hsettings : SameButRescan config config')
    (hrun : Optimizer.runSets config Rule.defaultSets s = .ok u t) (hquiet : t.report.Quiet)
    (hrun' : Optimizer.runSets config' Rule.defaultSets s' = .ok u' t')
    (hquiet' : t'.report.Quiet) :
    Agree CanMerge t t' := by
  obtain ⟨d₁, s₁, -, hsplit, hrun⟩ := runSets_cons_eq_ok.mp hrun
  obtain ⟨d₁', s₁', -, hsplit', hrun'⟩ := runSets_cons_eq_ok.mp hrun'
  have hquiet₁ := ((Grows.runSets _).le hrun).quiet hquiet
  have hquiet₁' := ((Grows.runSets _).le hrun').quiet hquiet'
  have h₁ := h.split ⟨hsettings, ⟨_, _, _, _, _, hsplit⟩, ⟨_, _, _, _, _, hsplit'⟩, hquiet₁,
    hquiet₁'⟩
  obtain ⟨d₂, s₂, -, hmove, hrun⟩ := runSets_cons_eq_ok.mp hrun
  obtain ⟨d₂', s₂', -, hmove', hrun'⟩ := runSets_cons_eq_ok.mp hrun'
  have hquiet₂ := ((Grows.runSets _).le hrun).quiet hquiet
  have hquiet₂' := ((Grows.runSets _).le hrun').quiet hquiet'
  have h₂ := Agree.move ⟨h₁.fit.canMerge, h₁.fit'.canMerge, h₁.counterparts, h₁.applications⟩
    ⟨hsettings, ⟨_, _, _, _, _, hmove⟩, ⟨_, _, _, _, _, hmove'⟩, hquiet₂, hquiet₂'⟩
  obtain ⟨d₃, s₃, -, hmerge, hend⟩ := runSets_cons_eq_ok.mp hrun
  obtain ⟨d₃', s₃', -, hmerge', hend'⟩ := runSets_cons_eq_ok.mp hrun'
  obtain ⟨-, rfl⟩ := EStateM.Result.ok.inj hend
  obtain ⟨-, rfl⟩ := EStateM.Result.ok.inj hend'
  exact h₂.merge ⟨hsettings, ⟨_, _, _, _, _, hmerge⟩, ⟨_, _, _, _, _, hmerge'⟩, hquiet, hquiet'⟩

/-- Noting the needed map keys behind both runs. -/
theorem Agree.finish (h : Agree Fit s s') (hsettings : SameButRescan config config')
    (hrun : Optimizer.finish config s = .ok u t) (hrun' : Optimizer.finish config' s' = .ok u' t') :
    (∃ φ, Rekeyed φ t.plan t'.plan) ∧ t'.report.applications = t.report.applications := by
  obtain ⟨φ, hφ⟩ := h.counterparts
  have hprune : config'.pruneMapKeys = config.pruneMapKeys := by rw [hsettings]
  rw [finish_eq] at hrun hrun'
  rw [hprune] at hrun'
  split at hrun
  · rename_i hpruned
    rw [if_pos hpruned] at hrun'
    cases hp : Plan.pruneMapKeys s.plan with
    | error e r =>
      rw [hp] at hrun
      cases hrun
    | ok k r =>
      cases hq : Plan.pruneMapKeys s'.plan with
      | error e r' =>
        rw [hq] at hrun'
        cases hrun'
      | ok k' r' =>
        rw [hp] at hrun
        rw [hq] at hrun'
        obtain ⟨-, rfl⟩ := EStateM.Result.ok.inj hrun
        obtain ⟨-, rfl⟩ := EStateM.Result.ok.inj hrun'
        exact ⟨⟨φ, (hφ.pruneMapKeys hp hq).2⟩, h.applications⟩
  · rename_i hpruned
    rw [if_neg hpruned] at hrun'
    obtain ⟨-, rfl⟩ := EStateM.Result.ok.inj hrun
    obtain ⟨-, rfl⟩ := EStateM.Result.ok.inj hrun'
    exact ⟨⟨φ, hφ.rekeyed⟩, h.applications⟩

/-- Two filters behind a load, by conjunctions of three parts and of two. -/
def twoConjunctions : AdmittedPlan := .make (do
  let yes : Formula := .constant (.boolean true)
  let two ← Plan.ofResult (yes.conjunction yes)
  let three ← Plan.ofResult (yes.conjunction two)
  let load ← append { operation := .load { location := "/in" } } []
  discard (append { operation := .filter three } [load])
  append { operation := .filter two } [load]) (by decide +kernel)

/-- Conjunctions stay split. -/
def splitting (rescan : RescanPolicy) : Config := { disabledRules := ["MergeFilter"], rescan }

end Optimizer

end Dataflow

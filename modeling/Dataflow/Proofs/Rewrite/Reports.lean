import Dataflow.Proofs.Plan.MapKeys
import Dataflow.Proofs.Rewrite.Runs

/-!
# What a run notes

However a run of the optimizer goes, it takes nothing out of its report (`Grows`). In particular a
rule that is noted to be out of use stays out of use, and what is left of the run is as if the rule
were in none of the sets (`applyRules_without`, `repeatSet_without`, `runSets_without`).
-/

namespace Dataflow

open Plan

namespace Report

variable {r r₁ r₂ : Report}

/-- One report says at least what another one says. Where it warns of nothing, no ceiling was hit in
between and no rule failed. -/
structure Le (r r' : Report) : Prop where
  warnings : r.warnings ⊆ r'.warnings
  disabledRules : r.disabledRules ⊆ r'.disabledRules
  hitCeiling : r.hitCeiling = true → r'.hitCeiling = true
  silent : r'.warnings = [] → r'.hitCeiling = r.hitCeiling ∧ r'.disabledRules = r.disabledRules

theorem Le.of_eq (hw : r₁.warnings = r.warnings) (hd : r₁.disabledRules = r.disabledRules)
    (hc : r₁.hitCeiling = r.hitCeiling) : Le r r₁ :=
  ⟨hw ▸ List.Subset.refl _, hd ▸ List.Subset.refl _, fun h => hc.trans h, fun _ => ⟨hc, hd⟩⟩

theorem Le.refl : Le r r := .of_eq rfl rfl rfl

theorem Le.trans (h : Le r r₁) (h' : Le r₁ r₂) : Le r r₂ where
  warnings _ hw := h'.warnings (h.warnings hw)
  disabledRules _ hd := h'.disabledRules (h.disabledRules hd)
  hitCeiling hc := h'.hitCeiling (h.hitCeiling hc)
  silent hnone := by
    obtain ⟨hc', hd'⟩ := h'.silent hnone
    obtain ⟨hc, hd⟩ := h.silent (List.subset_nil.mp (hnone ▸ h'.warnings))
    exact ⟨hc'.trans hc, hd'.trans hd⟩

theorem le_warn {text : String} : Le r (r.warn text) :=
  ⟨fun _ hw => List.mem_append_left _ hw, fun _ h => h, fun h => h, fun h => by simp [warn] at h⟩

theorem le_ceiling {text : String} : Le r (r.ceiling text) :=
  ⟨fun _ hw => List.mem_append_left _ hw, fun _ h => h, fun _ => rfl,
    fun h => by simp [ceiling, warn] at h⟩

/-- A rule that is noted to have failed is out of use, and no other one goes out of use by it. -/
theorem mem_disable {name rule : String} {e : Error} :
    name ∈ (r.disable rule e).disabledRules ↔ name = rule ∨ name ∈ r.disabledRules := by
  show name ∈ (if r.disabledRules.contains rule then r.disabledRules else _) ↔ _
  split
  · rename_i hmem
    constructor
    · exact .inr
    · rintro (rfl | hname)
      · exact List.contains_iff_mem.mp hmem
      · exact hname
  · exact Needs.mem_insertKey

theorem le_disable {rule : String} {e : Error} : Le r (r.disable rule e) :=
  ⟨fun _ hw => List.mem_append_left _ hw, fun _ h => mem_disable.mpr (.inr h), fun h => h,
    fun h => by simp [disable, warn] at h⟩

theorem le_record {rule : String} {entry : Option TraceEntry} : Le r (r.record rule entry) :=
  .of_eq rfl rfl rfl

/-- Nothing went wrong so far. -/
structure Quiet (r : Report) : Prop where
  warnings : r.warnings = []
  hitCeiling : r.hitCeiling = false
  disabledRules : r.disabledRules = []

theorem Le.quiet (h : Le r r₁) (hquiet : r₁.Quiet) : r.Quiet := by
  obtain ⟨hceiling, hdisabled⟩ := h.silent hquiet.warnings
  exact ⟨List.subset_nil.mp (hquiet.warnings ▸ h.warnings), hceiling ▸ hquiet.hitCeiling,
    hdisabled ▸ hquiet.disabledRules⟩

/-- A report that began empty and warns of nothing. -/
theorem Le.quiet_of_empty (h : Le {} r) (hnone : r.warnings = []) : r.Quiet := by
  obtain ⟨hceiling, hdisabled⟩ := h.silent hnone
  exact ⟨hnone, hceiling, hdisabled⟩

end Report

/-- The set without the rules of a name. -/
def RuleSet.without (name : String) (set : RuleSet) : RuleSet :=
  { set with rules := set.rules.filter (·.name ≠ name) }

namespace Optimizer

variable {config : Config} {rule : Rule} {rules : List Rule} {s t : Progress} {iteration : Nat}

/-! ## Notes are only added -/

/-- A property of reports that what is noted while rules are applied leaves as it is. -/
structure Spared (P : Report → Prop) : Prop where
  ceiling : ∀ {r : Report} {rule : String} {applied : Nat}, P r →
    P (r.ceiling s!"rule '{rule}' applied {applied} times in one iteration; moving on")
  disable : ∀ {r : Report} {rule : String} {e : Error}, P r → P (r.disable rule e)
  record : ∀ {r : Report} {rule : String} {entry : Option TraceEntry}, P r → P (r.record rule entry)

section Spared

variable {P : Report → Prop}

theorem keeps_onPlan {β : Type} {edit : Plan.Edit β} :
    Pass.Keeps (fun s => P s.report) (onPlan edit) := by
  intro s hs
  unfold Pass.after onPlan
  cases edit s.plan <;> exact hs

theorem keeps_applyRepeatedly (h : Spared P) : ∀ (remaining applied : Nat)
    (scope : Option (List NodeId)), Pass.Keeps (fun s => P s.report)
      (applyRepeatedly config rule iteration remaining applied scope) := by
  intro remaining
  induction remaining with
  | zero => exact fun _ _ => .bind (.modify fun _ => h.ceiling) fun _ => .pure
  | succ remaining ih =>
    intro applied scope
    unfold applyRepeatedly
    refine .bind .get fun before => ?_
    dsimp only
    split
    · exact .bind (.modify fun _ hs => hs) fun _ => .pure
    · refine .bind (.modify fun _ hs => hs) fun _ => .bind (.modify fun _ => h.record) fun _ => ?_
      exact ih _ _
    · split
      · exact .bind (.modify fun _ => h.disable) fun _ => .pure
      · exact .bind (.modify fun _ hs => hs) fun _ => .throw

theorem keeps_applyRule (h : Spared P) :
    Pass.Keeps (fun s => P s.report) (applyRule config rule iteration) :=
  .bind (.discard keeps_onPlan) fun _ => keeps_applyRepeatedly h _ _ _

theorem keeps_applyRules (h : Spared P) : ∀ rules : List Rule,
    Pass.Keeps (fun s => P s.report) (applyRules config iteration rules) := by
  intro rules
  induction rules with
  | nil => exact .pure
  | cons rule rest ih =>
    unfold applyRules
    refine .bind .get fun s => ?_
    split
    · exact ih
    · exact .bind (keeps_applyRule h) fun n => .bind ih fun more => .pure

end Spared

/-- The stretch of a run takes nothing out of the report, however it ends. -/
def Grows {β : Type} (x : Run β) : Prop :=
  ∀ report : Report, Pass.Keeps (fun s => report.Le s.report) x

namespace Grows

variable {β γ : Type} {x : Run β}

theorem pure {b : β} : Grows (Pure.pure b : Run β) := fun _ => .pure

theorem bind {f : β → Run γ} (hx : Grows x) (hf : ∀ b, Grows (f b)) : Grows (x >>= f) :=
  fun report => .bind (hx report) fun b => hf b report

theorem onReport {f : Report → Report} (h : ∀ r, Report.Le r (f r)) :
    Grows (Optimizer.onReport f) :=
  fun _ => .modify fun _ hs => hs.trans (h _)

theorem onPlan {edit : Plan.Edit β} : Grows (Optimizer.onPlan edit) := fun _ => keeps_onPlan

theorem spared (report : Report) : Spared report.Le :=
  ⟨fun h => h.trans Report.le_ceiling, fun h => h.trans Report.le_disable,
    fun h => h.trans Report.le_record⟩

theorem applyRule : Grows (Optimizer.applyRule config rule iteration) :=
  fun report => keeps_applyRule (spared report)

theorem applyRules (rules : List Rule) : Grows (Optimizer.applyRules config iteration rules) :=
  fun report => keeps_applyRules (spared report) rules

theorem repeatSet {set : RuleSet} : ∀ (remaining iteration : Nat) (seen : List Digest),
    Grows (Optimizer.repeatSet config set remaining iteration seen) := by
  intro remaining
  induction remaining with
  | zero => exact fun _ _ => .onReport fun _ => Report.le_ceiling
  | succ remaining ih =>
    intro iteration seen
    unfold Optimizer.repeatSet
    refine .bind (.onReport fun _ => .of_eq rfl rfl rfl) fun _ =>
      .bind (applyRules _) fun changed => ?_
    split
    · refine .bind onPlan fun now => ?_
      split
      · exact .onReport fun _ => Report.le_warn
      · exact ih _ _
    · exact .pure

theorem runSets : ∀ sets : List RuleSet, Grows (Optimizer.runSets config sets) := by
  intro sets
  induction sets with
  | nil => exact .pure
  | cons set rest ih =>
    exact .bind onPlan fun d => .bind (repeatSet _ _ _) fun _ => ih

theorem le {u : β} (h : Grows x) (hx : x s = .ok u t) : s.report.Le t.report :=
  (h s.report).of_ok .refl hx

end Grows

/-! ## Rules out of use -/

variable {name : String}

/-- What is left to do with the rules is the same without a rule that is out of use. -/
theorem applyRules_without : ∀ {rules : List Rule} {s : Progress},
    name ∈ s.report.disabledRules →
      applyRules config iteration (rules.filter (·.name ≠ name)) s =
        applyRules config iteration rules s := by
  intro rules
  induction rules with
  | nil => exact fun _ => rfl
  | cons rule rest ih =>
    intro s hs
    by_cases hname : rule.name = name
    · -- it is passed over
      rw [List.filter_cons_of_neg (by simpa using hname), ih hs]
      conv_rhs => unfold applyRules
      rw [Pass.bind_of_ok Pass.get_apply, if_pos]
      rw [hname, List.contains_iff_mem.mpr hs, Bool.or_true]
    · rw [List.filter_cons_of_pos (by simpa using hname)]
      unfold applyRules
      rw [Pass.bind_of_ok Pass.get_apply, Pass.bind_of_ok Pass.get_apply]
      split
      · exact ih hs
      · refine Pass.bind_congr rfl fun n t ht => Pass.bind_congr (ih ?_) fun _ _ _ => rfl
        exact (Grows.applyRule.le ht).disabledRules hs

theorem repeatSet_without {set : RuleSet} : ∀ {remaining iteration : Nat} {seen : List Digest}
    {s : Progress}, name ∈ s.report.disabledRules →
      repeatSet config (set.without name) remaining iteration seen s =
        repeatSet config set remaining iteration seen s := by
  intro remaining
  induction remaining with
  | zero => exact fun _ => rfl
  | succ remaining ih =>
    intro iteration seen s hs
    unfold repeatSet
    refine Pass.bind_congr rfl fun _ t ht => ?_
    obtain ⟨-, rfl⟩ := EStateM.Result.ok.inj ht
    refine Pass.bind_congr (applyRules_without hs) fun changed u hu => ?_
    cases changed with
    | false => rfl
    | true =>
      refine Pass.bind_congr rfl fun now v hv => ?_
      have hv' :=
        (Grows.onPlan.le hv).disabledRules ((Grows.applyRules _).le hu |>.disabledRules hs)
      split
      · rfl
      · exact ih hv'

theorem runSets_without : ∀ {sets : List RuleSet} {s : Progress}, name ∈ s.report.disabledRules →
    runSets config (sets.map (RuleSet.without name)) s = runSets config sets s := by
  intro sets
  induction sets with
  | nil => exact fun _ => rfl
  | cons set rest ih =>
    intro s hs
    rw [List.map_cons]
    unfold runSets
    refine Pass.bind_congr rfl fun d t ht => ?_
    have ht' := (Grows.onPlan.le ht).disabledRules hs
    refine Pass.bind_congr (repeatSet_without ht') fun _ u hu => ih ?_
    exact ((Grows.repeatSet _ _ _).le hu).disabledRules ht'

end Optimizer

end Dataflow

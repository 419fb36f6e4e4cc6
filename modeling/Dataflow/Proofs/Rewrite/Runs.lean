import Dataflow.Proofs.Plan.Valid
import Dataflow.Proofs.Rewrite.Transforms
import Dataflow.Rewrite.Optimizer

/-!
# Runs of the optimizer

A run of the optimizer applies rules to matches that passed their check, and asks for schemas in
between (`Reaches`). For rules that behave, in that they keep an invariant and fail for a known
reason only, going through a rule set keeps the invariant and ends with an error only if the
settings say so and one of the rules failed on a plan that was reached (`Ends`).
-/

namespace Dataflow

open Plan

variable {p q r : Plan} {m : Match} {e : Error}

/-- The operators of a match fit the pattern of the rule. -/
def Rule.Matches (rule : Rule) (p : Plan) (m : Match) : Prop :=
  ∃ pattern b, rule.pattern = .ok pattern ∧ pattern.matchAt p b = .ok (some m)

theorem Rule.matches_of_bind {rule : Rule} {b : NodeId}
    (h : (rule.pattern >>= fun pattern => pattern.matchAt p b).toOption.join = some m) :
    rule.Matches p m := by
  obtain ⟨found, hfound, rfl⟩ : ∃ found, (rule.pattern >>= fun pattern => pattern.matchAt p b) =
      .ok found ∧ found = some m := by
    cases hr : rule.pattern >>= fun pattern => pattern.matchAt p b with
    | error e => simp [hr, Except.toOption] at h
    | ok found => exact ⟨found, rfl, by simpa [hr, Except.toOption] using h⟩
  obtain ⟨pattern, hpattern, hmatch⟩ := Pass.except_bind_eq_ok.mp hfound
  exact ⟨pattern, b, hpattern, hmatch⟩

/-- Some of the rules, each applied to a match that passed its check, lead from one plan to the
other. -/
inductive Reaches (rules : List Rule) (p : Plan) : Plan → Prop
  | refl : Reaches rules p p
  | ask {q r : Plan} : Reaches rules p q → Extends q r → Reaches rules p r
  | apply {q q₁ q₂ r : Plan} {rule : Rule} {m : Match} {region : Region} : Reaches rules p q →
      rule ∈ rules → rule.Matches q m → Extends q q₁ → rule.check m q₁ = .ok true q₂ →
      rule.transform m q₂ = .ok region r → Reaches rules p r

namespace Reaches

variable {rules rules' : List Rule}

theorem trans (h : Reaches rules p q) (h' : Reaches rules q r) : Reaches rules p r := by
  induction h' with
  | refl => exact h
  | ask _ hext ih => exact ih.ask hext
  | apply _ hrule hm hext hc ht ih => exact ih.apply hrule hm hext hc ht

theorem mono (hsub : rules ⊆ rules') (h : Reaches rules p q) : Reaches rules' p q := by
  induction h with
  | refl => exact .refl
  | ask _ hext ih => exact ih.ask hext
  | apply _ hrule hm hext hc ht ih => exact ih.apply (hsub hrule) hm hext hc ht

end Reaches

/-- The rule asks for schemas only while it checks a match, keeps an invariant of plans that are fit
for it, and fails only where the given fault is. -/
structure Rule.Behaves (rule : Rule) (fit : Plan → Prop) (fault : Plan → Error → Prop) : Prop where
  rooted : ∃ pattern root, rule.pattern = .ok pattern ∧ pattern.root = .ok root
  check : ∀ p q m, fit p → rule.Matches p m → Extends p q →
    (∀ b r, rule.check m q = .ok b r → Extends q r) ∧ ∀ e r, rule.check m q = .error e r → fault q e
  transform : ∀ p q r m, fit p → rule.Matches p m → Extends p q → rule.check m q = .ok true r →
    (∀ region r', rule.transform m r = .ok region r' → fit r') ∧
      ∀ e r', rule.transform m r = .error e r' → fault r e

/-- What makes looking for matches succeed, and survives asking for schemas. -/
structure Fitness (fit : Plan → Prop) : Prop where
  sound : ∀ p, fit p → p.Sound
  valid : ∀ p, fit p → p.Valid
  asked : ∀ p q, fit p → Extends p q → fit q

/-- Plans that are reached by rules that behave are fit. -/
theorem Reaches.fit {rules : List Rule} {fit : Plan → Prop} {fault : Plan → Error → Prop}
    (hfit : Fitness fit) (hb : ∀ rule ∈ rules, rule.Behaves fit fault) (hp : fit p)
    (h : Reaches rules p q) : fit q := by
  induction h with
  | refl => exact hp
  | ask _ hext ih => exact hfit.asked _ _ ih hext
  | apply _ hrule hm hext hc ht ih =>
    exact ((hb _ hrule).transform _ _ _ _ ih hm hext hc).1 _ _ ht

namespace Optimizer

variable {fit : Plan → Prop} {fault : Plan → Error → Prop} {rule : Rule} {config : Config}
  {scope : Option (List NodeId)} {rules : List Rule}

/-! ## One application -/

/-- The fault arose on a plan that the rules reach. -/
def FailsOn (rules : List Rule) (fit : Plan → Prop) (fault : Plan → Error → Prop) (p : Plan)
    (e : Error) : Prop :=
  ∃ r, Reaches rules p r ∧ fit r ∧ fault r e

theorem FailsOn.trans (hpq : Reaches rules p q) (h : FailsOn rules fit fault q e) :
    FailsOn rules fit fault p e := by
  obtain ⟨r, hr, hfit, hfault⟩ := h
  exact ⟨r, hpq.trans hr, hfit, hfault⟩

/-- How an attempt to apply rules to a plan ends. -/
def Tries {β : Type} (rules : List Rule) (fit : Plan → Prop) (fault : Plan → Error → Prop)
    (p : Plan) : EStateM.Result Error Plan β → Prop
  | .ok _ r => Reaches rules p r ∧ fit r
  | .error e _ => FailsOn rules fit fault p e

theorem transformFirst_spec (hfit : Fitness fit) (hb : rule.Behaves fit fault) (hp : fit p) :
    ∀ {found : List Match} {q : Plan}, Extends p q → (∀ m ∈ found, rule.Matches p m) →
      Tries [rule] fit fault p (transformFirst config rule found q)
  | [], q, hq, _ => ⟨Reaches.refl.ask hq, hfit.asked p q hp hq⟩
  | m :: rest, q, hq, hfound => by
    have hrest : ∀ {q' : Plan}, Extends p q' →
        Tries [rule] fit fault p (transformFirst config rule rest q') := fun hq' =>
      transformFirst_spec hfit hb hp hq' fun m hm => hfound m (by simp [hm])
    have hm := hfound m (by simp)
    obtain ⟨hcheck, hcheckError⟩ := hb.check p q m hp hm hq
    unfold transformFirst
    rw [Pass.bind_of_ok Pass.get_apply]
    by_cases hthere : (!m.nodes.all q.contains) = true
    · rw [if_pos hthere]
      exact hrest hq
    rw [if_neg hthere]
    cases hc : rule.check m q with
    | error e r =>
      rw [show ∀ {β : Type} (k : Bool → Plan.Edit β), (rule.check m >>= k) q = .error e r from
        fun k => Pass.bind_eq_error.mpr (.inl hc)]
      exact ⟨q, Reaches.refl.ask hq, hfit.asked p q hp hq, hcheckError e r hc⟩
    | ok b r =>
      have hqr := hcheck b r hc
      rw [Pass.bind_of_ok hc]
      cases b with
      | false => exact hrest (hq.trans hqr)
      | true =>
        simp only [Bool.not_true, Bool.false_eq_true, if_false]
        obtain ⟨hok, herror⟩ := hb.transform p q r m hp hm hq hc
        cases ht : rule.transform m r with
        | error e r' =>
          rw [show ∀ {β : Type} (k : Region → Plan.Edit β),
            (rule.transform m >>= k) r = .error e r' from
            fun k => Pass.bind_eq_error.mpr (.inl ht)]
          exact ⟨r, Reaches.refl.ask (hq.trans hqr), hfit.asked p r hp (hq.trans hqr),
            herror e r' ht⟩
        | ok region r' =>
          have hfit' := hok region r' ht
          have hreach : Reaches [rule] p r' :=
            Reaches.apply .refl (by simp) hm hq hc ht
          rw [Pass.bind_of_ok ht]
          by_cases hval : config.validate = true
          · have hvalid := (validate_eq_ok (hfit.sound r' hfit').wellFormed
              (hfit.sound r' hfit').formulas).mpr (hfit.valid r' hfit')
            rw [if_pos hval, Pass.bind_of_ok Pass.get_apply, hvalid]
            exact ⟨hreach, hfit'⟩
          · rw [if_neg hval]
            exact ⟨hreach, hfit'⟩

theorem matchAndTransform_spec (hfit : Fitness fit) (hb : rule.Behaves fit fault) (hp : fit p) :
    Tries [rule] fit fault p (matchAndTransform config rule scope p) := by
  obtain ⟨pattern, root, hpattern, hroot⟩ := hb.rooted
  obtain ⟨found, hfound, hm⟩ := Pattern.exists_matches hroot
    (hfit.sound p hp).wellFormed (hfit.valid p hp).acyclic
  unfold matchAndTransform
  rw [Pass.bind_of_ok (ofResult_eq_ok.mpr ⟨hpattern, rfl⟩), Pass.bind_of_ok Pass.get_apply,
    Pass.bind_of_ok (ofResult_eq_ok.mpr ⟨hfound, rfl⟩)]
  refine transformFirst_spec hfit hb hp (.refl (hfit.sound p hp).coherent) fun m hmem => ?_
  obtain ⟨b, hat⟩ := hm m hmem
  exact ⟨pattern, b, hpattern, hat⟩

/-! ## Repetition -/

/-- How a stretch of a run ends: with a plan that the rules reach, or, if the settings say so, with
the error of a rule on such a plan. -/
def Ends {β : Type} (config : Config) (rules : List Rule) (fit : Plan → Prop)
    (fault : Plan → Error → Prop) (p : Plan) : EStateM.Result Error Progress β → Prop
  | .ok _ s => Reaches rules p s.plan ∧ fit s.plan
  | .error e _ => config.failurePolicy = .abort ∧ ∃ rule ∈ rules, ∃ cause,
      e = ruleError rule.name cause ∧ FailsOn rules fit fault p cause

namespace Ends

variable {β γ : Type} {s : Progress} {x : Run β}

theorem bind (hx : Ends config rules fit fault p (x s)) {f : β → Run γ}
    (hf : ∀ b s', x s = .ok b s' → Reaches rules p s'.plan → fit s'.plan →
      Ends config rules fit fault s'.plan (f b s')) :
    Ends config rules fit fault p ((x >>= f) s) := by
  cases h : x s with
  | error e s' =>
    rw [h] at hx
    rw [Pass.bind_eq_error.mpr (.inl h)]
    exact hx
  | ok b s' =>
    rw [h] at hx
    obtain ⟨hreach, hfit⟩ := hx
    have hrest := hf b s' h hreach hfit
    rw [Pass.bind_of_ok h]
    cases h' : f b s' with
    | error e t =>
      rw [h'] at hrest
      obtain ⟨habort, rule, hrule, cause, he, hfails⟩ := hrest
      exact ⟨habort, rule, hrule, cause, he, hfails.trans hreach⟩
    | ok c t =>
      rw [h'] at hrest
      exact ⟨hreach.trans hrest.1, hrest.2⟩

theorem mono {rules' : List Rule} {t : EStateM.Result Error Progress β} (hsub : rules ⊆ rules')
    (h : Ends config rules fit fault p t) : Ends config rules' fit fault p t := by
  cases t with
  | ok b s => exact ⟨h.1.mono hsub, h.2⟩
  | error e s =>
    obtain ⟨habort, rule, hrule, cause, he, r, hr, hfitr, hfault⟩ := h
    exact ⟨habort, rule, hsub hrule, cause, he, r, hr.mono hsub, hfitr, hfault⟩

end Ends

theorem applyRepeatedly_spec (hfit : Fitness fit) (hb : rule.Behaves fit fault)
    {iteration : Nat} : ∀ {remaining applied : Nat} {scope : Option (List NodeId)} {s : Progress},
    fit s.plan → Ends config [rule] fit fault s.plan
      (applyRepeatedly config rule iteration remaining applied scope s)
  | 0, applied, scope, s, hs => ⟨.refl, hs⟩
  | remaining + 1, applied, scope, s, hs => by
    unfold applyRepeatedly
    rw [Pass.bind_of_ok Pass.get_apply]
    have hone : Tries [rule] fit fault s.plan (matchAndTransform config rule scope s.plan) :=
      matchAndTransform_spec hfit hb hs
    cases hrun : matchAndTransform config rule scope s.plan with
    | error e q =>
      rw [hrun] at hone
      dsimp only
      cases hpolicy : config.failurePolicy with
      | bestEffort => exact ⟨.refl, hs⟩
      | abort => exact ⟨hpolicy, rule, by simp, e, rfl, hone⟩
    | ok region? q =>
      rw [hrun] at hone
      obtain ⟨hreach, hq⟩ := hone
      cases region? with
      | none => exact ⟨hreach, hq⟩
      | some region =>
        refine Ends.bind (s := s) (x := modify ({ · with plan := q })) ⟨hreach, hq⟩ ?_
        intro u s₁ hs₁ _ hfit₁
        refine Ends.bind (s := s₁) (x := onReport _) ⟨.refl, hfit₁⟩ ?_
        intro u s₂ hs₂ _ hfit₂
        exact applyRepeatedly_spec hfit hb hfit₂

theorem applyRule_spec (hfit : Fitness fit) (hb : rule.Behaves fit fault) {iteration : Nat}
    {s : Progress} (hs : fit s.plan) :
    Ends config [rule] fit fault s.plan (applyRule config rule iteration s) := by
  obtain ⟨pattern, root, hpattern, hroot⟩ := hb.rooted
  have hrooted : (discard (onPlan (Plan.ofResult (rule.pattern >>= Pattern.root))) : Run Unit) s =
      .ok () s := by
    rw [hpattern]
    refine Pass.discard_eq_ok.mpr ⟨root, ?_⟩
    rw [Pass.except_ok_bind, hroot]
    rfl
  unfold applyRule
  rw [Pass.bind_of_ok hrooted]
  exact applyRepeatedly_spec hfit hb hs

theorem applyRules_spec (hfit : Fitness fit) {iteration : Nat} : ∀ {rules : List Rule}
    {s : Progress}, (∀ rule ∈ rules, rule.Behaves fit fault) → fit s.plan →
    Ends config rules fit fault s.plan (applyRules config iteration rules s)
  | [], s, _, hs => ⟨.refl, hs⟩
  | rule :: rest, s, hb, hs => by
    have hrest : ∀ {s' : Progress}, fit s'.plan →
        Ends config (rule :: rest) fit fault s'.plan (applyRules config iteration rest s') :=
      fun hs' => (applyRules_spec hfit (fun rule hr => hb rule (by simp [hr])) hs').mono (by simp)
    unfold applyRules
    rw [Pass.bind_of_ok Pass.get_apply]
    by_cases hskip : (config.isDisabled rule.name ||
        s.report.disabledRules.contains rule.name) = true
    · rw [if_pos hskip]
      exact hrest hs
    · rw [if_neg hskip]
      refine Ends.bind ((applyRule_spec hfit (hb rule (by simp)) hs).mono (by simp)) ?_
      intro n s₁ _ _ hs₁
      refine Ends.bind (hrest hs₁) ?_
      intro more s₂ _ _ hs₂
      exact ⟨.refl, hs₂⟩

/-! ## Rule sets -/

/-- A plan without cycles has a text, and so a fingerprint. -/
theorem exists_fingerprint (hp : p.graph.WellFormed) (hac : p.graph.Acyclic) :
    ∃ d, p.fingerprint = .ok d := by
  obtain ⟨text, htext⟩ := exists_canonicalText hp hac
  exact ⟨.ofText text, fingerprint_of_canonicalText htext⟩

theorem fingerprint_spec (hfit : Fitness fit) {s : Progress} (hs : fit s.plan) :
    ∃ d, fingerprint s = .ok d s := by
  obtain ⟨d, hd⟩ := exists_fingerprint (hfit.sound _ hs).wellFormed (hfit.valid _ hs).acyclic
  refine ⟨d, ?_⟩
  unfold Optimizer.fingerprint onPlan
  rw [Pass.bind_of_ok Pass.get_apply, hd]
  rfl

theorem repeatSet_spec (hfit : Fitness fit) {set : RuleSet}
    (hb : ∀ rule ∈ set.rules, rule.Behaves fit fault) : ∀ {remaining iteration : Nat}
    {seen : List Digest} {s : Progress}, fit s.plan →
    Ends config set.rules fit fault s.plan (repeatSet config set remaining iteration seen s)
  | 0, iteration, seen, s, hs => ⟨.refl, hs⟩
  | remaining + 1, iteration, seen, s, hs => by
    unfold repeatSet
    refine Ends.bind (s := s) (x := onReport _) ⟨.refl, hs⟩ ?_
    intro u s₁ _ _ hs₁
    refine Ends.bind (applyRules_spec hfit hb hs₁) ?_
    intro changed s₂ _ _ hs₂
    cases changed with
    | false => exact ⟨.refl, hs₂⟩
    | true =>
      obtain ⟨d, hd⟩ := fingerprint_spec hfit hs₂
      rw [if_pos rfl, Pass.bind_of_ok hd]
      by_cases hseen : seen.contains d = true
      · rw [if_pos hseen]
        exact ⟨.refl, hs₂⟩
      · rw [if_neg hseen]
        exact repeatSet_spec hfit hb hs₂

end Optimizer

end Dataflow

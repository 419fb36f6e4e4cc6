import Dataflow.Proofs.Plan.Layout
import Dataflow.Proofs.Rewrite.Attempts
import Dataflow.Proofs.Rewrite.Default

/-!
# What the rules for filters leave alone

Every application of a rule for filters leaves a valid plan in which one filter is added, removed or
moved (`AddsFilter`, `RemovesFilter`, `MovesFilter`). All operators but the filters concerned are
the same, and those that are not next to the change have the same neighbours in the same slots
(`IntactBut`). Validating the plan after each application therefore never fails, and whether it is
done makes no difference to a run with the default rules (`optimize_validate`).
-/

namespace Dataflow

open Dataflow.Graph Plan Formula

variable {p q r : Plan} {m : Match} {u w x y z F G input : NodeId} {f f' g l c : Formula}
  {name : Option String} {touched path ids : List NodeId} {region : Region}

namespace Plan

/-! ## Slots -/

/-- Two lists of neighbours have the same slots, and those not filled by the listed operators are
filled alike. -/
structure SameSlots (touched ids ids' : List NodeId) : Prop where
  length : ids'.length = ids.length
  slot : ∀ (i : Nat) z, z ∉ touched → (ids'[i]? = some z ↔ ids[i]? = some z)

theorem SameSlots.refl : SameSlots touched ids ids := ⟨rfl, fun _ _ _ => .rfl⟩

/-- Putting a listed operator in the place of another one. -/
theorem SameSlots.renamed (hx : x ∈ touched) (hy : y ∈ touched) :
    SameSlots touched ids (ids.map (renamed x y)) where
  length := List.length_map ..
  slot i z hz := by
    have hne : ∀ {v}, v ∈ touched → v ≠ z := fun hv heq => hz (heq ▸ hv)
    rw [List.getElem?_map]
    cases ids[i]? with
    | none => exact .rfl
    | some v =>
      rw [Option.map_some, Option.some.injEq, Option.some.injEq]
      by_cases hv : v = x
      · rw [hv, renamed_self]
        exact iff_of_false (hne hy) (hne hx)
      · rw [renamed_of_ne hv]

/-- All operators but the listed ones have as many inputs and outputs as before, and among these the
operators that are not listed are in the same slots. -/
structure IntactBut (touched : List NodeId) (p q : Plan) : Prop where
  inputs : ∀ z, z ∉ touched → SameSlots touched (p.graph.predecessors z) (q.graph.predecessors z)
  outputs : ∀ z, z ∉ touched → SameSlots touched (p.graph.successors z) (q.graph.successors z)

/-! ## Effects -/

/-- `q` is `p` with another filter `w`, which takes over a part of the predicate of `u`. -/
structure AddsFilter (p q : Plan) (u w : NodeId) : Prop where
  ids : q.graph.ids = p.graph.ids ++ [w]
  absent : p.core? w = none
  filters : ∃ name f l r, p.IsFilter u name f ∧ q.IsFilter u name l ∧ q.IsFilter w none r ∧
    IsConjunction f l r
  others : ∀ z, z ≠ u → z ≠ w → q.core? z = p.core? z
  intact : IntactBut [u, w] p q

/-- `q` is `p` without the filter `w`, whose predicate is taken over by `u`. -/
structure RemovesFilter (p q : Plan) (u w : NodeId) : Prop where
  ids : q.graph.ids = p.graph.ids.filter (· != w)
  absent : q.core? w = none
  filters : ∃ nu nw f g c, p.IsFilter u nu f ∧ p.IsFilter w nw g ∧ q.IsFilter u (nw.or nu) c ∧
    IsConjunction c f g
  others : ∀ z, z ≠ u → z ≠ w → q.core? z = p.core? z
  intact : IntactBut [u, w] p q

/-- `q` has the operators of `p`, with the filter `G` at another place; in `p` it is behind the
`ForEach` operator `F`, and the operators of the path, from `F` on, lead to it. -/
structure MovesFilter (p q : Plan) (F G : NodeId) (path : List NodeId) : Prop where
  ids : q.graph.ids = p.graph.ids
  forEach : p.HasType F .forEach
  leads : p.LeadsTo G F path
  filters : ∃ input name f f', p.graph.predecessors F = [input] ∧ p.IsFilter G name f ∧
    q.IsFilter G name f' ∧ MovedOver p input F f f'
  others : ∀ z, z ≠ G → q.core? z = p.core? z
  intact : IntactBut (G :: path) p q

theorem Cascade.intact (h : Cascade p q u w f l g)
    (hsuc : ∀ z, z ≠ u → z ≠ w → q.graph.successors z = p.graph.successors z) :
    IntactBut [u, w] p q where
  inputs z hz := by
    rw [h.predecessors_of_ne (by simp_all)]
    exact .renamed (by simp) (by simp)
  outputs z hz := by
    rw [hsuc z (by simp_all) (by simp_all)]
    exact .refl

theorem Cascade.intact_back (h : Cascade q p u w f l g) (hq : q.graph.WellFormed)
    (hsuc : ∀ z, z ≠ u → z ≠ w → q.graph.successors z = p.graph.successors z) :
    IntactBut [u, w] p q where
  inputs z hz := by
    rw [h.predecessors_back hq (by simp_all)]
    exact .renamed (by simp) (by simp)
  outputs z hz := by
    rw [hsuc z (by simp_all) (by simp_all)]
    exact .refl

theorem Pushes.intact (h : Pushes p q input F G path f f') (hp : p.graph.WellFormed)
    (haround : LeadsAround p q input F G) : IntactBut (G :: path) p q := by
  obtain ⟨a, ha, hsuc, haG⟩ := h.exists_above hp
  have hF := h.leads.mem_self
  refine ⟨fun z hz => ?_, fun z hz => ?_⟩
  · have hzG : z ≠ G := by rintro rfl; simp at hz
    have hzF : z ≠ F := by rintro rfl; exact hz (by simp [hF])
    rw [h.predecessors a hsuc, if_neg hzG, if_neg hzF]
    exact .renamed (by simp) (by simp [ha])
  · have hzG : z ≠ G := by rintro rfl; simp at hz
    have hza : z ≠ a := by rintro rfl; exact hz (by simp [ha])
    rw [haround a hsuc, if_neg hzG, if_neg hza]
    split_ifs with hz
    · rw [hz]
      exact .renamed (by simp [hF]) (by simp)
    · exact .refl

/-- Schemas that were derived before the move do not count. -/
theorem MovesFilter.asked (hext : Extends p q) (h : MovesFilter q r F G path) :
    MovesFilter p r F G path := by
  have halike := hext.alike
  obtain ⟨input, name, f, f', hsource, hG, hG', t, s, o, ht, hs, ho, hmoved⟩ := h.filters
  exact {
    ids := h.ids.trans halike.ids
    forEach := halike.hasType h.forEach
    leads := h.leads.congr (fun z => (halike.successors z).symm) fun _ => halike.hasType
    filters := ⟨input, name, f, f', (halike.predecessors F).symm.trans hsource,
      halike.isFilter.mp hG, hG', t, s, o, hext.trans ht, hs, ho, hmoved⟩
    others := fun z hz => (h.others z hz).trans halike.core?
    intact := {
      inputs := fun z hz => halike.predecessors z ▸ h.intact.inputs z hz
      outputs := fun z hz => halike.successors z ▸ h.intact.outputs z hz } }

end Plan

/-! ## One application -/

namespace Rule

/-- The match is one of the rule and passes its check, and the transform leaves `r`. -/
structure AppliesTo (rule : Rule) (m : Match) (p r : Plan) : Prop where
  matched : rule.Matches p m
  applied : ∃ q region, rule.check m p = .ok true q ∧ rule.transform m q = .ok region r

theorem appliesTo_of_result {rule : Rule} {b : NodeId}
    (hm : (rule.pattern >>= fun pattern => pattern.matchAt p b).toOption.join = some m)
    (hc : Pass.result? (rule.check m) p = some true)
    (ht : (Pass.result? (rule.transform m) (Pass.after (rule.check m) p)).isSome = true) :
    rule.AppliesTo m p (Pass.after (rule.transform m) (Pass.after (rule.check m) p)) := by
  obtain ⟨region, hregion⟩ := Option.isSome_iff_exists.mp ht
  exact ⟨matches_of_bind hm, _, region, Pass.eq_ok_after hc, Pass.eq_ok_after hregion⟩

theorem splitFilter_adds (hp : p.Sound) (hv : p.Valid)
    (h : splitFilter.AppliesTo m p r) :
    r.validate = .ok () ∧ ∃ u w, m.get 0 = .ok u ∧ AddsFilter p r u w := by
  obtain ⟨hm, q, region, hc, ht⟩ := h
  obtain ⟨u, name, f, hanchor, hu⟩ := splitFilter_matches hm
  rw [splitFilter_check hanchor hu] at hc
  obtain ⟨hconj, rfl⟩ : f.isConjunction = true ∧ p = q := by simpa using hc
  obtain ⟨region', r', l, s, hrun, -, -, hvalid, hcascade, hl, hs, hids, -, hsuc, -⟩ :=
    splitFilter_spec hp hv hanchor hu hconj
  obtain ⟨-, rfl⟩ := EStateM.Result.ok.inj (hrun.symm.trans ht)
  refine ⟨hvalid, u, _, hanchor, hids, hcascade.absent,
    ⟨name, f, l, s, hu, hl, hs, hcascade.conjunction⟩, hcascade.other,
    hcascade.intact fun z hzu hzw => ?_⟩
  rw [hsuc, if_neg hzu, if_neg hzw]

theorem mergeFilter_removes (hp : p.Sound) (hv : p.Valid)
    (hroom : ∀ u w nu nw f g, m.get 0 = .ok u → m.get 1 = .ok w → p.IsFilter u nu f →
      p.IsFilter w nw g → f.Conjoinable g) (h : mergeFilter.AppliesTo m p r) :
    r.validate = .ok () ∧ ∃ u w, m.get 0 = .ok u ∧ m.get 1 = .ok w ∧ RemovesFilter p r u w := by
  obtain ⟨hm, q, region, hc, ht⟩ := h
  obtain ⟨u, w, rest, nu, nw, f, g, hmu, hmw, hsuc, hf, hg⟩ := mergeFilter_matches hm
  rw [mergeFilter_check hmu] at hc
  obtain ⟨hlen, rfl⟩ : (p.graph.successors u).length = 1 ∧ p = q := by simpa using hc
  rw [hsuc] at hlen
  obtain rfl : rest = [] := by simpa using hlen
  obtain ⟨region', r', c, hrun, hr, hvr, hcascade, hu, hids, -, hsucr, -⟩ :=
    mergeFilter_spec hp hv hmu hmw hf hg hsuc (hroom u w nu nw f g hmu hmw hf hg)
  obtain ⟨-, rfl⟩ := EStateM.Result.ok.inj (hrun.symm.trans ht)
  refine ⟨(validate_eq_ok hr.wellFormed hr.formulas).mpr hvr, u, w, hmu, hmw, hids,
    hcascade.absent, ⟨nu, nw, f, g, c, hf, hg, hu, hcascade.conjunction⟩, fun z hzu hzw =>
    (hcascade.other z hzu hzw).symm, hcascade.intact_back hr.wellFormed fun z hzu hzw => ?_⟩
  rw [hsucr, if_neg hzw, if_neg hzu]

theorem filterAboveForEach_moves (hp : p.Sound) (hv : p.Valid)
    (h : filterAboveForEach.AppliesTo m p r) :
    r.validate = .ok () ∧ ∃ F G path, m.get 0 = .ok F ∧ MovesFilter p r F G path := by
  obtain ⟨hm, q, region, hc, ht⟩ := h
  obtain ⟨F, hmF, hF⟩ := filterAboveForEach_matches hm
  obtain ⟨hext, hsome⟩ := (filterAboveForEach_check (hp.ready hv) hmF
    (.refl hp.coherent)).1 true q hc
  obtain ⟨⟨input, G⟩, hfound⟩ := hsome rfl
  have hq := hp.extends hext
  rcases filterAboveForEach_spec hq (hext.alike.valid hv) (hext.alike.symm.hasType hF) hmF hfound
    with ⟨region', r', path, name, f, f', hrun, hr, hvr, hpushes, hover, hG, hG', hids, -, haround,
      -⟩ | ⟨e, r', hrun, -⟩
  · obtain ⟨-, rfl⟩ := EStateM.Result.ok.inj (hrun.symm.trans ht)
    have hmoves : MovesFilter q r' F G path := ⟨hids, hpushes.forEach, hpushes.leads,
      ⟨input, name, f, f', hpushes.source, hG, hG', hover⟩, hpushes.other,
      hpushes.intact hq.wellFormed haround⟩
    exact ⟨(validate_eq_ok hr.wellFormed hr.formulas).mpr hvr, F, G, path, hmF,
      hmoves.asked hext⟩
  · rw [hrun] at ht
    cases ht

end Rule

/-! ## Whole runs -/

/-- The settings with validation switched on or off. -/
def Config.validating (config : Config) (validate : Bool) : Config := { config with validate }

namespace Optimizer

variable {fit : Plan → Prop} {fault : Plan → Error → Prop} {rule : Rule} {config config' : Config}
  {scope : Option (List NodeId)} {iteration : Nat} {s t : Progress} {e : Error}

/-- The settings decide only whether the plan is validated, and that goes well. -/
theorem transformFirst_settings (hfit : Fitness fit) (hb : rule.Behaves fit fault) (hp : fit p) :
    ∀ {found : List Match} {q : Plan}, Extends p q → (∀ m ∈ found, rule.Matches p m) →
      transformFirst config rule found q = transformFirst config' rule found q := by
  intro found
  induction found with
  | nil => exact fun _ _ => rfl
  | cons m rest ih =>
    intro q hq hfound
    have hrest : ∀ {q' : Plan}, Extends p q' →
        transformFirst config rule rest q' = transformFirst config' rule rest q' := fun hq' =>
      ih hq' fun m hm => hfound m (by simp [hm])
    have hm := hfound m (by simp)
    have hvalid : ∀ {t region r}, rule.check m q = .ok true t → rule.transform m t = .ok region r →
        r.validate = .ok () := fun hc ht => by
      have hr := (hb.transform p q _ m hp hm hq hc).1 _ _ ht
      have hsound := hfit.sound _ hr
      exact (validate_eq_ok hsound.wellFormed hsound.formulas).mpr (hfit.valid _ hr)
    rcases match_cases config rule m q with h | ⟨h, r, hc⟩ | ⟨region, r, h⟩ | ⟨e, r, h⟩
    · rw [transformFirst_gone h, transformFirst_gone h]
      exact hrest hq
    · rw [transformFirst_refused h hc, transformFirst_refused h hc]
      exact hrest (hq.trans ((hb.check p q m hp hm hq).1 _ _ hc))
    · obtain ⟨t, hc, ht⟩ := h.applied
      rw [transformFirst_changes h, transformFirst_changes ⟨h.there, ⟨t, hc, ht⟩, fun _ =>
        hvalid hc ht⟩]
    · have h' : Fails config' rule m q e r := by
        cases h with
        | check hthere hc => exact .check hthere hc
        | transform hthere hc ht => exact .transform hthere hc ht
        | validation hthere hc ht _ hinvalid =>
          rw [hvalid hc ht] at hinvalid
          cases hinvalid
      rw [transformFirst_fails h, transformFirst_fails h']

theorem matchAndTransform_settings (hfit : Fitness fit) (hb : rule.Behaves fit fault) (hp : fit p) :
    matchAndTransform config rule scope p = matchAndTransform config' rule scope p := by
  rw [matchAndTransform_eq, matchAndTransform_eq]
  refine Pass.bind_congr rfl fun found q h => ?_
  obtain ⟨hfound, rfl⟩ := ofResult_eq_ok.mp h
  exact transformFirst_settings hfit hb hp (.refl (hfit.sound p hp).coherent) fun m hm =>
    Rule.matches_of_findMatches hfound hm

theorem fit_of_ends {β : Type} {rules : List Rule} {x : Run β} {b : β}
    (h : Ends config rules fit fault p (x s)) (hx : x s = .ok b t) : fit t.plan := by
  rw [hx] at h
  exact h.2

variable {b : Bool}

theorem applyRepeatedly_validate (hfit : Fitness fit) (hb : rule.Behaves fit fault) :
    ∀ {remaining applied : Nat} {scope : Option (List NodeId)} {s : Progress}, fit s.plan →
      applyRepeatedly (config.validating b) rule iteration remaining applied scope s =
        applyRepeatedly config rule iteration remaining applied scope s := by
  intro remaining
  induction remaining with
  | zero => exact fun _ => rfl
  | succ remaining ih =>
    intro applied scope s hs
    have hone : Tries [rule] fit fault s.plan (matchAndTransform config rule scope s.plan) :=
      matchAndTransform_spec hfit hb hs
    have hsame : matchAndTransform (config.validating b) rule scope s.plan =
        matchAndTransform config rule scope s.plan := matchAndTransform_settings hfit hb hs
    rw [applyRepeatedly_succ, applyRepeatedly_succ, hsame]
    cases hrun : matchAndTransform config rule scope s.plan with
    | error e q => rfl
    | ok region? q =>
      cases region? with
      | none => rfl
      | some region =>
        rw [hrun] at hone
        exact ih hone.2

theorem applyRules_validate (hfit : Fitness fit) : ∀ {rules : List Rule} {s : Progress},
    (∀ rule ∈ rules, rule.Behaves fit fault) → fit s.plan →
      applyRules (config.validating b) iteration rules s =
        applyRules config iteration rules s := by
  intro rules
  induction rules with
  | nil => exact fun _ _ => rfl
  | cons rule rest ih =>
    intro s hb hs
    have hrest : ∀ {t : Progress}, fit t.plan →
        applyRules (config.validating b) iteration rest t =
          applyRules config iteration rest t := fun ht => ih (fun r hr => hb r (by simp [hr])) ht
    have hrule := hb rule (by simp)
    have hone : applyRule (config.validating b) rule iteration s =
        applyRule config rule iteration s := by
      refine Pass.bind_congr rfl fun _ t h => ?_
      obtain ⟨root, hroot⟩ := Pass.discard_eq_ok.mp h
      obtain ⟨-, rfl⟩ := onPlan_ofResult_eq_ok.mp hroot
      exact applyRepeatedly_validate hfit hrule hs
    unfold applyRules
    rw [Pass.bind_of_ok Pass.get_apply, Pass.bind_of_ok Pass.get_apply,
      show (config.validating b).isDisabled rule.name = config.isDisabled rule.name from rfl]
    split
    · exact hrest hs
    · refine Pass.bind_congr hone fun n t hn => ?_
      rw [hone] at hn
      exact Pass.bind_congr (hrest (fit_of_ends (applyRule_spec hfit hrule hs) hn)) fun _ _ _ => rfl

theorem repeatSet_validate (hfit : Fitness fit) {set : RuleSet}
    (hb : ∀ rule ∈ set.rules, rule.Behaves fit fault) : ∀ {remaining iteration : Nat}
    {seen : List Digest} {s : Progress}, fit s.plan →
      repeatSet (config.validating b) set remaining iteration seen s =
        repeatSet config set remaining iteration seen s := by
  intro remaining
  induction remaining with
  | zero => exact fun _ => rfl
  | succ remaining ih =>
    intro iteration seen s hs
    unfold repeatSet
    refine Pass.bind_congr rfl fun _ s₁ hnote => ?_
    have hs₁ : fit s₁.plan := (EStateM.Result.ok.inj hnote).2 ▸ hs
    have hrules : applyRules (config.validating b) iteration set.rules s₁ =
        applyRules config iteration set.rules s₁ := applyRules_validate hfit hb hs₁
    refine Pass.bind_congr hrules fun changed t h => ?_
    rw [hrules] at h
    have ht : fit t.plan := fit_of_ends (applyRules_spec hfit hb hs₁) h
    split
    · obtain ⟨d, hd⟩ := fingerprint_spec hfit ht
      rw [Pass.bind_of_ok hd, Pass.bind_of_ok hd]
      split
      · rfl
      · exact ih ht
    · rfl

theorem runSets_cons_validate (hfit : Fitness fit) {set : RuleSet} {rest : List RuleSet}
    (hb : ∀ rule ∈ set.rules, rule.Behaves fit fault) (hs : fit s.plan)
    (hrest : ∀ t : Progress, fit t.plan →
      runSets (config.validating b) rest t = runSets config rest t) :
    runSets (config.validating b) (set :: rest) s = runSets config (set :: rest) s := by
  obtain ⟨d, hd⟩ := fingerprint_spec hfit hs
  have hset : repeatSet (config.validating b) set config.maxIterations 1 [d] s =
      repeatSet config set config.maxIterations 1 [d] s := repeatSet_validate hfit hb hs
  unfold runSets
  rw [Pass.bind_of_ok hd, Pass.bind_of_ok hd]
  refine Pass.bind_congr hset fun _ t h => hrest t ?_
  exact fit_of_ends (repeatSet_spec hfit hb hs) (hset.symm.trans h)

/-- On a plan with room for keys, validating the plan after each application changes nothing. -/
theorem optimize_validate (hp : p.Sound) (hv : p.Valid) (hroom : p.HasRoom) :
    ({ config := config.validating b } : Optimizer).optimize p =
      ({ config } : Optimizer).optimize p := by
  have hsplit : ∀ rule ∈ [Rule.splitFilter], rule.Behaves CanSplit fun _ _ => False := by
    simpa using Rule.splitFilter_behaves
  have hmove : ∀ rule ∈ [Rule.filterAboveForEach], rule.Behaves CanMerge Rule.MoveFault := by
    simpa using Rule.filterAboveForEach_behaves
  have hmerge : ∀ rule ∈ [Rule.mergeFilter], rule.Behaves CanMerge fun _ _ => False := by
    simpa using Rule.mergeFilter_behaves
  have hsets : runSets (config.validating b) Rule.defaultSets { plan := p } =
      runSets config Rule.defaultSets { plan := p } :=
    runSets_cons_validate fitness_canSplit hsplit (hroom.canSplit hp hv) fun _ ht =>
      runSets_cons_validate fitness_canMerge hmove ht.canMerge fun _ ht =>
        runSets_cons_validate fitness_canMerge hmerge ht fun _ _ => rfl
  have hrun : ({ config := config.validating b } : Optimizer).run { plan := p } =
      ({ config } : Optimizer).run { plan := p } := by
    rw [run_eq, run_eq]
    refine Pass.bind_congr rfl fun _ t ht => ?_
    rw [begin_eq] at ht
    obtain ⟨-, rfl⟩ := onPlan_ofResult_eq_ok.mp ht
    exact Pass.bind_congr hsets fun _ _ _ => rfl
  unfold optimize
  rw [hrun]

/-- A schema that cannot be derived is not the fault of a rule. -/
theorem not_broken_of_stuck (h : Stuck p e) (rule detail : String) :
    e ≠ .brokenByRule rule detail := by
  rintro rfl
  obtain ⟨q, -, x, op, -, -, hfails⟩ := h
  rcases Operator.deriveSchema_eq_error _ hfails with ⟨n, he⟩ | ⟨column, width, he⟩ <;> cases he

/-- Whatever ends a run, it is not that a rule left a plan that is not valid. -/
theorem optimize_not_broken (hp : p.Sound) (hv : p.Valid) (hroom : p.HasRoom)
    (h : ({ config } : Optimizer).optimize p = .error e q) (rule detail : String) :
    e ≠ .brokenByRule rule detail := by
  by_cases hconfig : config.maxIterations = 0
  · have hcheck : config.check = .error (.config .zeroIterations) := by
      unfold Config.check
      rw [if_pos hconfig]
    unfold optimize at h
    rw [run_eq, Pass.bind_eq_error.mpr (.inl (show begin config { plan := p } = .error _ _ by
      rw [begin_eq, hcheck]; rfl))] at h
    obtain ⟨rfl, -⟩ := EStateM.Result.error.inj h
    simp
  · have hcheck : config.check = .ok () := by
      unfold Config.check
      rw [if_neg hconfig]
    have hspec := optimize_spec hp hv hroom hcheck
    rw [h] at hspec
    rcases hspec with ⟨-, cause, rfl, p₁, r, -, -, -, hfault⟩ | ⟨-, r, t, -, hr, hkeys⟩
    · rcases hfault with hstuck | ⟨rfl, -⟩
      · intro heq
        cases cause with
        | brokenByRule rule' detail' => exact not_broken_of_stuck hstuck rule' detail' rfl
        | _ => cases heq
      · simp [ruleError]
    · have hstuck := pruneMapKeys_spec hr.sound hr.valid
      rw [hkeys] at hstuck
      exact not_broken_of_stuck hstuck rule detail

/-- On a valid plan, a rule for filters whose transform succeeds on a match that passed its check
leaves a valid plan with one filter more, one filter less or the same operators; all operators but
the filters concerned are the same, and those away from the change keep their slots. So no run with
the default rules ends because a rule left a plan that is not valid, and looking for that after each
application never makes a difference. -/
theorem validity_kept (hp : p.Sound) (hvalid : p.validate = .ok ()) :
    (∀ m r, Rule.splitFilter.AppliesTo m p r →
      r.validate = .ok () ∧ ∃ u w, m.get 0 = .ok u ∧ AddsFilter p r u w) ∧
    (∀ m r, (∀ u w nu nw f g, m.get 0 = .ok u → m.get 1 = .ok w → p.IsFilter u nu f →
        p.IsFilter w nw g → f.Conjoinable g) → Rule.mergeFilter.AppliesTo m p r →
      r.validate = .ok () ∧ ∃ u w, m.get 0 = .ok u ∧ m.get 1 = .ok w ∧ RemovesFilter p r u w) ∧
    (∀ m r, Rule.filterAboveForEach.AppliesTo m p r →
      r.validate = .ok () ∧ ∃ F G path, m.get 0 = .ok F ∧ MovesFilter p r F G path) ∧
    (p.HasRoom → ∀ config,
      (∀ e q, ({ config } : Optimizer).optimize p = .error e q →
        ∀ rule detail, e ≠ .brokenByRule rule detail) ∧
      ∀ b, ({ config := config.validating b } : Optimizer).optimize p =
        ({ config } : Optimizer).optimize p) := by
  have hv := (validate_eq_ok hp.wellFormed hp.formulas).mp hvalid
  exact ⟨fun m r h => Rule.splitFilter_adds hp hv h,
    fun m r hroom h => Rule.mergeFilter_removes hp hv hroom h,
    fun m r h => Rule.filterAboveForEach_moves hp hv h,
    fun hroom config => ⟨fun e q h => optimize_not_broken hp hv hroom h,
      fun b => optimize_validate hp hv hroom⟩⟩

/-- A filter by a conjunction behind a `ForEach`, and another filter behind it. -/
def chainedFilters : AdmittedPlan := .make (do
  let column : Formula := ⟨(Graph.empty.add (.column 0 0 none)).2⟩
  let load ← append
    { operation := .load
        { location := "/in", declared := some [{ name := some "b", type := .boolean }] } } []
  let rows ← append { operation := .forEach [{ formula := column }] } [load]
  let both ← Plan.ofResult (column.conjunction column)
  let upper ← append { operation := .filter both } [rows]
  let lower ← append { operation := .filter column } [upper]
  append { operation := .store "/out" } [lower]) (by decide +kernel)

/-- Each of the rules can be applied to the plan: its first filter is split, merged with the second
or moved in front of the `ForEach`. -/
theorem chainedFilters_validity_kept :
    (∃ r w, Rule.splitFilter.AppliesTo ⟨[⟨2⟩]⟩ chainedFilters.plan r ∧ r.validate = .ok () ∧
      AddsFilter chainedFilters.plan r ⟨2⟩ w) ∧
    (∃ r, Rule.mergeFilter.AppliesTo ⟨[⟨2⟩, ⟨3⟩]⟩ chainedFilters.plan r ∧ r.validate = .ok () ∧
      RemovesFilter chainedFilters.plan r ⟨2⟩ ⟨3⟩) ∧
    (∃ r G path, Rule.filterAboveForEach.AppliesTo ⟨[⟨1⟩, ⟨2⟩]⟩ chainedFilters.plan r ∧
      r.validate = .ok () ∧ MovesFilter chainedFilters.plan r ⟨1⟩ G path) ∧
    ({ config := Config.validating {} false } : Optimizer).optimize chainedFilters.plan =
      ({} : Optimizer).optimize chainedFilters.plan := by
  have hp := chainedFilters.sound
  obtain ⟨hsplit, hmerge, hmove, hrun⟩ := validity_kept hp chainedFilters.valid
  refine ⟨?_, ?_, ?_, (hrun chainedFilters.hasRoom {}).2 false⟩
  · have happlies : Rule.splitFilter.AppliesTo ⟨[⟨2⟩]⟩ chainedFilters.plan _ :=
      Rule.appliesTo_of_result (b := ⟨2⟩) (by decide +kernel) (by decide +kernel)
        (by decide +kernel)
    obtain ⟨hvalid, u, w, hu, hadds⟩ := hsplit _ _ happlies
    obtain rfl : ⟨2⟩ = u := Except.ok.inj hu
    exact ⟨_, w, happlies, hvalid, hadds⟩
  · have happlies : Rule.mergeFilter.AppliesTo ⟨[⟨2⟩, ⟨3⟩]⟩ chainedFilters.plan _ :=
      Rule.appliesTo_of_result (b := ⟨2⟩) (by decide +kernel) (by decide +kernel)
        (by decide +kernel)
    have hv := (validate_eq_ok hp.wellFormed hp.formulas).mp chainedFilters.valid
    obtain ⟨hvalid, u, w, hu, hw, hremoves⟩ := hmerge _ _ (fun u w nu nw f g hu hw hf hg => by
      obtain rfl : ⟨2⟩ = u := Except.ok.inj hu
      obtain rfl : ⟨3⟩ = w := Except.ok.inj hw
      exact conjoinable_of_total hp hv hf hg (by decide)
        (chainedFilters.hasRoom.canSplit hp hv).total) happlies
    obtain rfl : ⟨2⟩ = u := Except.ok.inj hu
    obtain rfl : ⟨3⟩ = w := Except.ok.inj hw
    exact ⟨_, happlies, hvalid, hremoves⟩
  · have happlies : Rule.filterAboveForEach.AppliesTo ⟨[⟨1⟩, ⟨2⟩]⟩ chainedFilters.plan _ :=
      Rule.appliesTo_of_result (b := ⟨1⟩) (by decide +kernel) (by decide +kernel)
        (by decide +kernel)
    obtain ⟨hvalid, F, G, path, hF, hmoves⟩ := hmove _ _ happlies
    obtain rfl : ⟨1⟩ = F := Except.ok.inj hF
    exact ⟨_, G, path, happlies, hvalid, hmoves⟩

end Optimizer

end Dataflow

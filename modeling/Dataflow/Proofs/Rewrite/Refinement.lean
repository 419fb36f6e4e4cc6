import Dataflow.Proofs.Rewrite.Schemas

/-!
# A cascade refines the filter by the conjunction

Two filters one after the other store what one filter by the conjunction stores, whenever that one
does not fail, provided that the plan with the two filters can be prepared at all. The second filter
of a cascade has no name, which is how a plan can lose a name on which its schemas depend.
-/

namespace Dataflow

open Dataflow.Graph Plan Engine

variable {p q : Plan} {s s' : Storage} {u w t : NodeId} {f g l r c : Formula} {rows : Relation}
  {m : Match}

/-- Prepared and run on a storage, the stage of the store ends with these rows and this storage. -/
def RunsTo (p : Plan) (s : Storage) (t : NodeId) (rows : Relation) (s' : Storage) : Prop :=
  ∃ P, Prepared.ofPlan p = .ok P ∧ ∃ stage ∈ P.stages, stage.store = t ∧
    runStage P stage s = .ok (rows, s')

theorem runsTo_iff (hp : p.Sound) (hv : p.Valid) {d : NodeId → Meaning} (hd : Solves s p d) :
    RunsTo p s t rows s' ↔ (∃ q, resolveSchemas p = .ok () q) ∧ ∃ name location,
      p.core? t = some { name, operation := .store location } ∧
        (∀ z, p.graph.contains z = true → Feeds p t z → SucceedsAt s p d z) ∧
          rows = (d t).rows ∧ s' = s.insert location rows := by
  constructor
  · rintro ⟨P, hP, stage, hstage, rfl, hrun⟩
    have hprep := ofPlan_eq_ok hp hP
    have his := hprep.stages stage hstage
    obtain ⟨hall, hrows, hs⟩ := (runStage_eq_ok hp hprep hd his).mp hrun
    obtain ⟨name, hcore⟩ := his.store
    refine ⟨((exists_ofPlan_iff hp).mp ⟨P, hP⟩).2, name, stage.location, hcore, fun z hz hf => ?_,
      hrows, hs⟩
    exact hall z (his.mem_operators.mpr (.inr ⟨hz, hf⟩))
  · rintro ⟨hresolve, name, location, hcore, hall, hrows, hs⟩
    obtain ⟨P, hP⟩ := (exists_ofPlan_iff hp).mpr ⟨hv, hresolve⟩
    have hprep := ofPlan_eq_ok hp hP
    have hstore : p.HasType t .store := hasType_iff_core?.mpr ⟨_, hcore, rfl⟩
    obtain ⟨stage, hstage, rfl⟩ := List.mem_map.mp ((hprep.stores t).mp hstore)
    have his := hprep.stages stage hstage
    obtain ⟨name', hcore'⟩ := his.store
    have hloc : stage.location = location := by
      have := hcore'.symm.trans hcore
      simp only [Option.some.injEq, Operator.mk.injEq, Operation.store.injEq] at this
      exact this.2.1
    refine ⟨P, hP, stage, hstage, rfl, (runStage_eq_ok hp hprep hd his).mpr ⟨fun z hz => ?_,
      hrows, hloc ▸ hs⟩⟩
    rcases his.mem_operators.mp hz with rfl | ⟨hcz, hf⟩
    · exact hall _ hstore.contains .refl
    · exact hall z hcz hf

/-- A plan with two filters stores what the plan with one filter by the conjunction stores, if its
schemas can be derived. -/
theorem Plan.Cascade.runsTo (h : Cascade p q u w f l r) (hp : p.Sound) (hv : p.Valid)
    (hq : q.Sound) (hvq : q.Valid) (hrun : RunsTo p s t rows s') :
    RunsTo q s t rows s' ↔ ∃ q', resolveSchemas q = .ok () q' := by
  obtain ⟨d, hd⟩ := exists_solves s hp.wellFormed hv.acyclic
  obtain ⟨-, name, location, hcore, hall, hrows, hs⟩ := (runsTo_iff hp hv hd).mp hrun
  have hstore : p.HasType t .store := hasType_iff_core?.mpr ⟨_, hcore, rfl⟩
  obtain ⟨htu, htw⟩ := h.ne_of_not_filter (by simp) hstore
  rw [runsTo_iff hq hvq (h.solves hp hv hd)]
  refine ⟨And.left, fun hresolve => ⟨hresolve, name, location, (h.other t htu htw).trans hcore,
    fun z hz hf => ?_, by rw [h.meaning_of_ne htu htw, hrows], hs⟩⟩
  have hfeeds := h.feeds hp.wellFormed htw hf
  -- both filters feed what the single one feeds
  have hfilters : Feeds p t u → SucceedsAt s q (h.meaning s d) u ∧
      SucceedsAt s q (h.meaning s d) w := fun hfu => by
    obtain ⟨n, hu⟩ := h.whole
    exact h.filters_succeed hp hv hd (hall u hu.hasType.contains hfu)
  by_cases hzu : z = u
  · rw [hzu, renamed_of_ne h.ne] at hfeeds
    exact hzu ▸ (hfilters hfeeds).1
  by_cases hzw : z = w
  · rw [hzw, renamed_self] at hfeeds
    exact hzw ▸ (hfilters hfeeds).2
  · rw [renamed_of_ne hzw] at hfeeds
    refine (h.succeedsAt hp.wellFormed hzu hzw).mpr (hall z ?_ hfeeds)
    rw [contains_eq_core?, ← h.other z hzu hzw, ← contains_eq_core?]
    exact hz

/-- What a plan stores by a filter by a conjunction it also stores after that filter was split, and
what it stores after two filters were merged it also stored before, as long as the schemas of the
plan with two filters can be derived. -/
theorem Rule.cascade_refines (hp : p.Sound) (hvalid : p.validate = .ok ()) (hroom : p.HasRoom) :
    (∀ (m : Match) (r : Plan) (region : Region), splitFilter.Matches p m →
      splitFilter.check m p = .ok true r → splitFilter.transform m r = .ok region q →
      ∀ s t rows s', RunsTo p s t rows s' →
        (RunsTo q s t rows s' ↔ ∃ q', resolveSchemas q = .ok () q')) ∧
    (∀ (m : Match) (r : Plan) (region : Region), mergeFilter.Matches p m →
      mergeFilter.check m p = .ok true r → mergeFilter.transform m r = .ok region q →
      ∀ s t rows s', RunsTo q s t rows s' →
        (RunsTo p s t rows s' ↔ ∃ p', resolveSchemas p = .ok () p')) := by
  have hv := (validate_eq_ok hp.wellFormed hp.formulas).mp hvalid
  have hfit := hroom.canSplit hp hv
  refine ⟨fun m r region hm hc ht s t rows s' hrun => ?_,
    fun m r region hm hc ht s t rows s' hrun => ?_⟩
  · obtain ⟨u, name, f, hm', hu⟩ := splitFilter_matches hm
    obtain rfl : p = r := by
      rw [splitFilter_check hm' hu] at hc
      exact (EStateM.Result.ok.inj hc).2
    obtain ⟨_, _, u, w, f, l, g, ht', hq, -, h⟩ :=
      splitFilter_applies hfit hm (.refl hp.coherent) hc
    obtain ⟨-, rfl⟩ := EStateM.Result.ok.inj (ht.symm.trans ht')
    exact h.runsTo hp hv hq.sound hq.valid hrun
  · obtain ⟨u, w, rest, nu, nw, f, g, hmu, -⟩ := mergeFilter_matches hm
    obtain rfl : p = r := by
      rw [mergeFilter_check hmu] at hc
      exact (EStateM.Result.ok.inj hc).2
    obtain ⟨_, _, u, w, c, f, g, ht', hq, -, h⟩ :=
      mergeFilter_applies hfit.canMerge hm (.refl hp.coherent) hc
    obtain ⟨-, rfl⟩ := EStateM.Result.ok.inj (ht.symm.trans ht')
    exact h.runsTo hq.sound hq.valid hp hv hrun

/-! ## Plans with cascades -/

/-- What the stage of a store ends with. -/
def runOf? (p : Plan) (s : Storage) (t : NodeId) : Option (Relation × Storage) := do
  let P ← (Prepared.ofPlan p).toOption
  let stage ← P.stages.find? (·.store == t)
  (runStage P stage s).toOption

theorem runsTo_of_runOf? (h : runOf? p s t = some (rows, s')) : RunsTo p s t rows s' := by
  unfold runOf? at h
  obtain ⟨P, hP, h⟩ := Option.bind_eq_some_iff.mp h
  obtain ⟨stage, hfind, h⟩ := Option.bind_eq_some_iff.mp h
  refine ⟨P, ?_, stage, List.mem_of_find?_eq_some hfind, ?_, ?_⟩
  · cases hp : Prepared.ofPlan p <;> simp_all [Except.toOption]
  · simpa using List.find?_some hfind
  · cases hr : runStage P stage s <;> simp_all [Except.toOption]

theorem exists_runsTo (h : (runOf? p s t).isSome = true) : ∃ rows s', RunsTo p s t rows s' := by
  obtain ⟨⟨rows, s'⟩, hr⟩ := Option.isSome_iff_exists.mp h
  exact ⟨rows, s', runsTo_of_runOf? hr⟩

/-- Two filters in a row. -/
def cascadePlan : AdmittedPlan := .make (do
  let load ← append { operation := .load { location := "/in" } } []
  let first ← append { operation := .filter (.constant (.boolean true)) } [load]
  let second ← append { operation := .filter (.constant (.boolean true)) } [first]
  append { operation := .store "/out" } [second]) (by decide +kernel)

/-- The product with its first column named like the second one once the filter was split. -/
def namedCrossedPlan : AdmittedPlan := .make (do
  let column (i : Nat) : Formula := ⟨(Graph.empty.add (.column 0 i none)).2⟩
  let items : List Item := [{ formula := column 0, name := some "x" }, { formula := column 1 }]
  let columns ← append { name := some "P", operation := .forEach items } [← crossed]
  append { operation := .store "/out" } [columns]) (by decide +kernel)

/-- A filter of a product is split, and two filters are merged; both times the store ends with the
same. -/
theorem cascade_refines_plans :
    (∃ r region q rows s', Rule.splitFilter.check ⟨[⟨2⟩]⟩ crossedPlan.plan = .ok true r ∧
      Rule.splitFilter.transform ⟨[⟨2⟩]⟩ r = .ok region q ∧
      RunsTo crossedPlan.plan .oneRecord ⟨4⟩ rows s' ∧ RunsTo q .oneRecord ⟨4⟩ rows s') ∧
    ∃ r region q rows s', Rule.mergeFilter.check ⟨[⟨1⟩, ⟨2⟩]⟩ cascadePlan.plan = .ok true r ∧
      Rule.mergeFilter.transform ⟨[⟨1⟩, ⟨2⟩]⟩ r = .ok region q ∧
      RunsTo q .oneRecord ⟨3⟩ rows s' ∧ RunsTo cascadePlan.plan .oneRecord ⟨3⟩ rows s' := by
  refine ⟨?_, ?_⟩
  · obtain ⟨-, r, region, q, q', -, hm, hc, ht, hq', -⟩ := splitFilter_crossedPlan
    obtain ⟨rows, s', hrun⟩ := exists_runsTo (p := crossedPlan.plan) (s := .oneRecord) (t := ⟨4⟩)
      (by decide +kernel)
    have hsame := (Rule.cascade_refines crossedPlan.sound crossedPlan.valid crossedPlan.hasRoom).1
      _ r region hm hc ht _ _ rows s' hrun
    exact ⟨r, region, q, rows, s', hc, ht, hrun, hsame.mpr ⟨q', hq'⟩⟩
  · have hc := Pass.eq_ok_after (x := Rule.mergeFilter.check ⟨[⟨1⟩, ⟨2⟩]⟩) (s := cascadePlan.plan)
      (a := true) (by decide +kernel)
    have ht := Pass.eq_ok_after (x := Rule.mergeFilter.transform ⟨[⟨1⟩, ⟨2⟩]⟩)
      (s := Pass.after (Rule.mergeFilter.check ⟨[⟨1⟩, ⟨2⟩]⟩) cascadePlan.plan)
      (a := .ofList [⟨1⟩, ⟨3⟩]) (by decide +kernel)
    have hm : Rule.mergeFilter.Matches cascadePlan.plan ⟨[⟨1⟩, ⟨2⟩]⟩ :=
      Rule.matches_of_bind (b := ⟨1⟩) (by decide +kernel)
    obtain ⟨rows, s', hrun⟩ := exists_runsTo (s := .oneRecord) (t := ⟨3⟩)
      (p := Pass.after (Rule.mergeFilter.transform ⟨[⟨1⟩, ⟨2⟩]⟩)
        (Pass.after (Rule.mergeFilter.check ⟨[⟨1⟩, ⟨2⟩]⟩) cascadePlan.plan)) (by decide +kernel)
    have hsame := (Rule.cascade_refines cascadePlan.sound cascadePlan.valid cascadePlan.hasRoom).2
      _ _ _ hm hc ht _ _ rows s' hrun
    exact ⟨_, _, _, rows, s', hc, ht, hrun, hsame.mpr (by decide +kernel)⟩

/-- Splitting a filter may leave a plan that cannot be run any more. -/
theorem not_runsTo_of_split : ¬∀ (p q r : Plan) (m : Match) (region : Region), p.Sound →
    p.validate = .ok () → p.HasRoom → Rule.splitFilter.Matches p m →
    Rule.splitFilter.check m p = .ok true r → Rule.splitFilter.transform m r = .ok region q →
    ∀ s t rows s', RunsTo p s t rows s' → RunsTo q s t rows s' := by
  intro h
  have hc := Pass.eq_ok_after (x := Rule.splitFilter.check ⟨[⟨2⟩]⟩) (s := namedCrossedPlan.plan)
    (a := true) (by decide +kernel)
  have ht := Pass.eq_ok_after (x := Rule.splitFilter.transform ⟨[⟨2⟩]⟩)
    (s := Pass.after (Rule.splitFilter.check ⟨[⟨2⟩]⟩) namedCrossedPlan.plan)
    (a := .ofList [⟨2⟩, ⟨6⟩, ⟨3⟩]) (by decide +kernel)
  obtain ⟨rows, s', hrun⟩ := exists_runsTo (p := namedCrossedPlan.plan) (s := .oneRecord) (t := ⟨5⟩)
    (by decide +kernel)
  obtain ⟨P, hP, -⟩ := h _ _ _ _ _ namedCrossedPlan.sound namedCrossedPlan.valid
    namedCrossedPlan.hasRoom (Rule.matches_of_bind (b := ⟨2⟩) (by decide +kernel)) hc ht
    _ _ _ _ hrun
  have hnone : (Prepared.ofPlan (Pass.after (Rule.splitFilter.transform ⟨[⟨2⟩]⟩)
      (Pass.after (Rule.splitFilter.check ⟨[⟨2⟩]⟩) namedCrossedPlan.plan))).isOk = false := by
    decide +kernel
  rw [hP] at hnone
  simp [Except.isOk, Except.toBool] at hnone

end Dataflow

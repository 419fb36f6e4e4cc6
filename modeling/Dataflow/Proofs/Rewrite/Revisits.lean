import Dataflow.Proofs.Plan.Separation
import Dataflow.Proofs.Rewrite.Fixpoint

/-!
# Coming back to an earlier plan

A rule set is left before it is through if the plan has the fingerprint of one that was there
before, and then the report says so. For each such note there were these two plans in the run
(`stopsAt_of_revisited`, `StopsAt.fingerprint`). If different texts have different digests, and
nothing in the texts of the two plans is open, then they are the same (`told_apart_by_text`).
-/

namespace Dataflow.Optimizer

open Plan

variable {config : Config} {set other : RuleSet} {iteration : Nat} {s t u : Progress}
  {o : Optimizer}
  {p q now : Plan} {earlier plans : List Plan} {report : Report}

/-! ## The note -/

theorem revisited_toList (set : RuleSet) : (revisited set).toList =
    'r' :: 'u' :: 'l' :: 'e' :: ' ' :: 's' :: ("et '".toList ++ set.name.toList ++
      "' revisited an earlier plan; stoppin".toList ++ ['g']) := by
  simp [revisited, toString]

theorem name_eq_of_revisited (h : revisited set = revisited other) : set.name = other.name := by
  have h := congrArg String.toList h
  rw [revisited_toList, revisited_toList] at h
  simpa [String.toList_inj] using h

/-- What is noted about a rule begins otherwise. -/
theorem ne_revisited_of_rule {text : String} (h : text.toList[5]? = some '\'') :
    text ≠ revisited set := by
  rintro rfl
  simp [revisited_toList] at h

/-- What is noted about a ceiling ends otherwise. -/
theorem ne_revisited_of_ceiling {text : String} (h : text.toList.getLast? = some 't') :
    text ≠ revisited set := by
  rintro rfl
  rw [revisited_toList] at h
  simp only [← List.cons_append, List.getLast?_concat] at h
  cases h

/-- How often the report says that a rule set came back to an earlier plan. -/
def notes (set : RuleSet) (r : Report) : Nat := r.warnings.count (revisited set)

theorem notes_warn {r : Report} {text : String} (h : text ≠ revisited set) :
    notes set (r.warn text) = notes set r := by
  simp [notes, Report.warn, h]

theorem spared_notes {n : Nat} : Spared (fun r => notes set r = n) where
  ceiling h := (notes_warn (ne_revisited_of_rule (by simp [toString]))).trans h
  disable h := (notes_warn (ne_revisited_of_rule (by simp [toString]))).trans h
  record h := h

/-- The note is made. -/
def noted (set : RuleSet) (t : Progress) : Progress :=
  { t with report := t.report.warn (revisited set) }

theorem notes_noted : notes set (noted set t).report = notes set t.report + 1 := by
  simp [notes, noted, Report.warn]

theorem noted_inj (h : noted set s = noted set t) : s = t := by
  obtain ⟨p, r⟩ := s
  obtain ⟨q, r'⟩ := t
  obtain ⟨rfl, h⟩ := Progress.mk.inj h
  cases r
  cases r'
  simpa [Report.warn] using h

/-! ## The plans of a rule set -/

/-- The rules of the set are gone through once, and something changes. -/
def Turn (config : Config) (set : RuleSet) (iteration : Nat) (s t : Progress) : Prop :=
  applyRules config iteration set.rules
    { s with report := { s.report with iterations := s.report.iterations + 1 } } = .ok true t

/-- The rules of the set are gone through one or more times, each time with a change. The plans are
those there were before each of the times. -/
inductive Turns (config : Config) (set : RuleSet) :
    Nat → Progress → List Plan → Progress → Prop
  | last {iteration : Nat} {s t : Progress} : Turn config set iteration s t →
      Turns config set iteration s [s.plan] t
  | more {iteration : Nat} {s t u : Progress} {plans : List Plan} : Turn config set iteration s t →
      Turns config set (iteration + 1) t plans u → Turns config set iteration s (s.plan :: plans) u

theorem Turn.unique (h : Turn config set iteration s t) (h' : Turn config set iteration s u) :
    t = u :=
  (EStateM.Result.ok.inj (h.symm.trans h')).2

theorem spared_iterations {n : Nat} : Spared (fun r => r.iterations = n) := ⟨id, id, id⟩

theorem Turn.iterations (h : Turn config set iteration s t) :
    t.report.iterations = s.report.iterations + 1 := by
  refine (keeps_applyRules spared_iterations set.rules).of_ok ?_ h
  rfl

theorem Turn.notes (h : Turn config set iteration s t) :
    notes other t.report = notes other s.report := by
  refine (keeps_applyRules spared_notes set.rules).of_ok ?_ h
  rfl

namespace Turns

theorem iterations (h : Turns config set iteration s plans t) :
    t.report.iterations = s.report.iterations + plans.length := by
  induction h with
  | last hturn => exact hturn.iterations
  | more hturn _ ih => rw [ih, hturn.iterations, List.length_cons]; omega

theorem notes (h : Turns config set iteration s plans t) :
    notes other t.report = notes other s.report := by
  induction h with
  | last hturn => exact hturn.notes
  | more hturn _ ih => exact ih.trans hturn.notes

/-- The same number of times leads through the same plans. -/
theorem unique (h : Turns config set iteration s plans t) : ∀ {earlier : List Plan},
    Turns config set iteration s earlier u → earlier.length = plans.length →
      earlier = plans ∧ u = t := by
  induction h with
  | last hturn =>
    intro earlier h' hlength
    cases h' with
    | last hturn' => exact ⟨rfl, hturn'.unique hturn⟩
    | more hturn' hmore =>
      cases hmore <;> simp at hlength
  | more hturn hmore ih =>
    intro earlier h' hlength
    cases h' with
    | last hturn' => cases hmore <;> simp at hlength
    | more hturn' hmore' =>
      obtain rfl := hturn.unique hturn'
      obtain ⟨rfl, rfl⟩ := ih hmore' (by simpa using hlength)
      exact ⟨rfl, rfl⟩

end Turns

/-- The note is made where the plan has the fingerprint of one that was there before. The `past`
plans are those whose fingerprints are known when the set is begun. -/
theorem turns_of_repeatSet : ∀ {remaining iteration : Nat} {seen : List Digest} (past : List Plan)
    {s t : Progress}, (∀ d ∈ seen, ∃ e ∈ s.plan :: past, e.fingerprint = .ok d) →
    repeatSet config set remaining iteration seen s = .ok () t →
    notes other s.report ≠ notes other t.report →
    ∃ plans u, Turns config set iteration s plans u ∧ t = noted set u ∧
      revisited set = revisited other ∧
      ∃ e ∈ plans ++ past, e.fingerprint = u.plan.fingerprint := by
  intro remaining
  induction remaining with
  | zero =>
    intro iteration seen past s t _ h hnew
    obtain ⟨-, rfl⟩ := EStateM.Result.ok.inj h
    exact absurd (notes_warn (ne_revisited_of_ceiling (by simp))).symm hnew
  | succ remaining ih =>
    intro iteration seen past s t hseen h hnew
    unfold repeatSet at h
    obtain ⟨_, s₁, hnote, h⟩ := Pass.bind_eq_ok.mp h
    obtain ⟨-, rfl⟩ := EStateM.Result.ok.inj hnote
    obtain ⟨changed, s₂, hone, h⟩ := Pass.bind_eq_ok.mp h
    have hnotes : notes other s₂.report = notes other s.report := by
      refine (keeps_applyRules spared_notes set.rules).of_ok ?_ hone
      rfl
    cases changed with
    | false =>
      obtain ⟨-, rfl⟩ := EStateM.Result.ok.inj h
      exact absurd hnotes.symm hnew
    | true =>
      have hturn : Turn config set iteration s s₂ := hone
      rw [if_pos rfl] at h
      obtain ⟨d, s₃, hnow, h⟩ := Pass.bind_eq_ok.mp h
      obtain ⟨hd, rfl⟩ := fingerprint_eq_ok.mp hnow
      split at h
      · rename_i hfound
        obtain ⟨-, rfl⟩ := EStateM.Result.ok.inj h
        obtain ⟨e, he, hfingerprint⟩ := hseen d (by simpa using hfound)
        refine ⟨_, s₂, .last hturn, rfl, ?_, e, he, hfingerprint.trans hd.symm⟩
        by_contra hne
        exact hnew (hnotes.symm.trans (notes_warn hne).symm)
      · have hseen₂ : ∀ d' ∈ d :: seen, ∃ e ∈ s₂.plan :: s.plan :: past,
          e.fingerprint = .ok d' := by
          refine List.forall_mem_cons.mpr ⟨⟨_, List.mem_cons_self, hd⟩, fun d' hd' => ?_⟩
          obtain ⟨e, he, hfingerprint⟩ := hseen d' hd'
          exact ⟨e, List.mem_cons_of_mem _ he, hfingerprint⟩
        obtain ⟨plans, u, hturns, ht, heq, e, he, hfingerprint⟩ := ih _ hseen₂ h (hnotes ▸ hnew)
        refine ⟨_, u, .more hturn hturns, ht, heq, e, ?_, hfingerprint⟩
        simp only [List.mem_append, List.mem_cons] at he ⊢
        tauto

/-- A set is left as soon as the fingerprint is known. -/
theorem repeatSet_of_turn {remaining : Nat} {seen : List Digest} {d : Digest}
    (h : Turn config set iteration s t) (hd : t.plan.fingerprint = .ok d) (hseen : d ∈ seen) :
    repeatSet config set (remaining + 1) iteration seen s = .ok () (noted set t) := by
  unfold repeatSet
  refine Pass.bind_eq_ok.mpr ⟨(), _, rfl, Pass.bind_eq_ok.mpr ⟨true, t, h, ?_⟩⟩
  rw [if_pos rfl]
  refine Pass.bind_eq_ok.mpr ⟨d, t, fingerprint_eq_ok.mpr ⟨hd, rfl⟩, ?_⟩
  rw [if_pos (by simpa using hseen)]
  rfl

/-! ## Whole runs -/

/-- The run comes to the rule set, goes through it with the plans `earlier`, and leaves it at the
plan `now` with the note that it was there before. -/
def StopsAt (o : Optimizer) (p : Plan) (set : RuleSet) (earlier : List Plan) (now : Plan) : Prop :=
  ∃ before behind s t, o.sets = before ++ set :: behind ∧
    runSets o.config before { plan := p } = .ok () s ∧ Turns o.config set 1 s earlier t ∧
    t.plan = now ∧ runSets o.config (before ++ [set]) { plan := p } = .ok () (noted set t)

theorem runSets_concat_eq_ok {before : List RuleSet} :
    runSets config (before ++ [set]) s = .ok () t ↔ ∃ u d,
      runSets config before s = .ok () u ∧ u.plan.fingerprint = .ok d ∧
      repeatSet config set config.maxIterations 1 [d] u = .ok () t := by
  rw [runSets_append, Pass.bind_eq_ok]
  constructor
  · rintro ⟨_, u, hbefore, h⟩
    obtain ⟨d, v, hd, hrepeat, h⟩ := runSets_cons_eq_ok.mp h
    obtain ⟨-, rfl⟩ := EStateM.Result.ok.inj h
    exact ⟨u, d, hbefore, hd, hrepeat⟩
  · rintro ⟨u, d, hbefore, hd, hrepeat⟩
    exact ⟨(), u, hbefore, runSets_cons_eq_ok.mpr ⟨d, t, hd, hrepeat, rfl⟩⟩

/-- For a note that is made in a run there is a rule set that was left so. -/
theorem exists_noted_of_runSets : ∀ {sets : List RuleSet} {s t : Progress},
    runSets config sets s = .ok () t → notes other s.report ≠ notes other t.report →
    ∃ before set behind u plans v, sets = before ++ set :: behind ∧
      runSets config before s = .ok () u ∧ Turns config set 1 u plans v ∧
      revisited set = revisited other ∧
      runSets config (before ++ [set]) s = .ok () (noted set v) := by
  intro sets
  induction sets with
  | nil =>
    intro s t h hnew
    obtain ⟨-, rfl⟩ := EStateM.Result.ok.inj h
    exact absurd rfl hnew
  | cons set rest ih =>
    intro s t h hnew
    obtain ⟨d, s₁, hd, hrepeat, hrest⟩ := runSets_cons_eq_ok.mp h
    by_cases hsame : notes other s.report = notes other s₁.report
    · obtain ⟨before, set', behind, u, plans, v, rfl, hbefore, hturns, heq, hset⟩ :=
        ih hrest (hsame ▸ hnew)
      exact ⟨set :: before, set', behind, u, plans, v, rfl,
        runSets_cons_eq_ok.mpr ⟨d, s₁, hd, hrepeat, hbefore⟩, hturns, heq,
        runSets_cons_eq_ok.mpr ⟨d, s₁, hd, hrepeat, hset⟩⟩
    · obtain ⟨plans, u, hturns, rfl, heq, -⟩ :=
        turns_of_repeatSet [] (by simpa using hd) hrepeat hsame
      exact ⟨[], set, rest, s, plans, u, rfl, rfl, hturns, heq,
        runSets_concat_eq_ok.mpr ⟨s, d, rfl, hd, hrepeat⟩⟩

theorem notes_finish {u : Unit} (h : finish config s = .ok u t) :
    notes other t.report = notes other s.report := by
  have hkeeps : Pass.Keeps (fun t => notes other t.report = notes other s.report)
      (finish config) := by
    unfold finish
    split
    · exact .bind (keeps_onPlan (P := fun r => notes other r = notes other s.report)) fun _ =>
        .modify fun _ ht => ht
    · exact .pure
  exact hkeeps.of_ok rfl h

/-- The report says that an earlier plan came up again only if a rule set was left so. -/
theorem stopsAt_of_revisited (hrun : o.optimize p = .ok report q)
    (hnote : revisited other ∈ report.warnings) : ∃ set earlier now,
      set.name = other.name ∧ StopsAt o p set earlier now := by
  obtain ⟨-, -, last, hlast, hfinish⟩ := optimize_eq_ok.mp hrun
  have hnew : notes other ({ plan := p } : Progress).report ≠ notes other last.report := by
    rw [← notes_finish hfinish]
    exact (List.count_pos_iff.mpr hnote).ne
  obtain ⟨before, set, behind, s, earlier, t, hsets, hbefore, hturns, heq, hset⟩ :=
    exists_noted_of_runSets hlast hnew
  exact ⟨set, earlier, t.plan, name_eq_of_revisited heq, before, behind, s, t, hsets, hbefore,
    hturns, rfl, hset⟩

/-- A rule set is left so only where the plan has the fingerprint of one of the plans before. -/
theorem StopsAt.fingerprint (h : StopsAt o p set earlier now) :
    ∃ e ∈ earlier, e.fingerprint = now.fingerprint := by
  obtain ⟨before, behind, s, t, -, hbefore, hturns, rfl, hset⟩ := h
  obtain ⟨s', d, hbefore', hd, hrepeat⟩ := runSets_concat_eq_ok.mp hset
  obtain ⟨-, rfl⟩ := EStateM.Result.ok.inj (hbefore.symm.trans hbefore')
  have hnew : notes set s.report ≠ notes set (noted set t).report := by
    rw [notes_noted, hturns.notes]
    exact (Nat.succ_ne_self _).symm
  obtain ⟨plans, u, hturns', ht, -, e, he, hfingerprint⟩ :=
    turns_of_repeatSet [] (by simpa using hd) hrepeat hnew
  obtain rfl := noted_inj ht
  have hlength : plans.length = earlier.length := by
    have h := hturns.iterations.symm.trans hturns'.iterations
    omega
  obtain ⟨rfl, -⟩ := hturns.unique hturns' hlength
  exact ⟨e, by simpa using he, hfingerprint⟩

/-- The plans are sound and valid, and where one of the earlier ones has the fingerprint of the last
one it has its text, which tells both apart from other plans. -/
structure ToldApart (earlier : List Plan) (now : Plan) : Prop where
  plans : ∀ e ∈ now :: earlier, e.Sound ∧ e.validate = .ok ()
  texts : ∀ e ∈ earlier, e.fingerprint = now.fingerprint → e.canonicalText = now.canonicalText ∧
    ∃ place, e.isLegible place = true ∧ now.isLegible place = true

/-- Where plans are told apart, a rule set is left so only at a plan that was there before. -/
theorem StopsAt.exists_same (h : StopsAt o p set earlier now) (htold : ToldApart earlier now) :
    ∃ e ∈ earlier, e.same now = true := by
  obtain ⟨e, he, hfingerprint⟩ := h.fingerprint
  obtain ⟨htext, place, hel, hnl⟩ := htold.texts e he hfingerprint
  obtain ⟨hes, hev⟩ := htold.plans e (List.mem_cons_of_mem now he)
  obtain ⟨hns, hnv⟩ := htold.plans now List.mem_cons_self
  exact ⟨e, he, same_of_canonicalText hes hns hev hnv hel hnl htext⟩

/-- A legible plan is the same, up to keys and identities of columns, as any other with the same
text. So an optimizer is right to leave a rule set because an earlier plan came up again, if
different texts have different digests; and if its report says so, it did leave one of that name
there. -/
theorem told_apart_by_text (hp : p.Sound) (hpv : p.validate = .ok ()) :
    (∀ (q : Plan) (place : Nat → Nat → String → Nat), q.Sound → q.validate = .ok () →
      p.isLegible place = true → q.isLegible place = true → p.canonicalText = q.canonicalText →
      p.same q = true) ∧
    (∀ (o : Optimizer) (set : RuleSet) (earlier : List Plan) (now : Plan),
      StopsAt o p set earlier now → (∀ e ∈ now :: earlier, e.Sound ∧ e.validate = .ok ()) →
      (∀ e ∈ earlier, e.fingerprint = now.fingerprint → e.canonicalText = now.canonicalText ∧
        ∃ place, e.isLegible place = true ∧ now.isLegible place = true) →
      ∃ e ∈ earlier, e.same now = true) ∧
    ∀ (o : Optimizer) (report : Report) (q : Plan) (set : RuleSet), o.optimize p = .ok report q →
      revisited set ∈ report.warnings → ∃ left earlier now, left.name = set.name ∧
        StopsAt o p left earlier now ∧
        (ToldApart earlier now → ∃ e ∈ earlier, e.same now = true) := by
  refine ⟨fun q place hq => same_of_canonicalText hp hq hpv, ?_, ?_⟩
  · intro o set earlier now hstops hplans htexts
    exact hstops.exists_same ⟨hplans, htexts⟩
  · intro o report q set hrun hnote
    obtain ⟨left, earlier, now, hname, hstops⟩ := stopsAt_of_revisited hrun hnote
    exact ⟨left, earlier, now, hname, hstops, hstops.exists_same⟩

/-- Filters are split and merged in one set, so that it comes to no end by itself. -/
def undoing : Optimizer where
  config := { pruneMapKeys := false }
  sets := [⟨"undo", [Rule.splitFilter, Rule.mergeFilter]⟩]

/-- A filter that can be split. -/
def conjoined (backward : Bool) : Plan := sifted (.binary .and flag.isNull flag) backward

/-- Where the rules lead that undo each other. -/
def rejoined : Progress :=
  Pass.after (applyRules undoing.config 1 [Rule.splitFilter, Rule.mergeFilter])
    { plan := conjoined false, report := { iterations := 1 } }

theorem conjoined_told_apart : (conjoined false).same (conjoined true) = true ∧
    StopsAt undoing (conjoined false) ⟨"undo", [Rule.splitFilter, Rule.mergeFilter]⟩
      [conjoined false] rejoined.plan ∧
    (∃ e ∈ [conjoined false], e.same rejoined.plan = true) ∧
    ∃ report q left earlier now, undoing.optimize (conjoined false) = .ok report q ∧
      left.name = "undo" ∧ StopsAt undoing (conjoined false) left earlier now := by
  have hplan : ∀ backward, (conjoined backward).Sound ∧ (conjoined backward).validate = .ok () := by
    intro backward
    cases backward <;> exact
      ⟨sound_of_fresh (by decide +kernel) (by decide +kernel) (by decide +kernel),
        by decide +kernel⟩
  have hlegible : ∀ backward, (conjoined backward).isLegible (fun _ _ _ => 0) = true := by
    decide +kernel
  have hnow : rejoined.plan.Sound ∧ rejoined.plan.validate = .ok () :=
    ⟨sound_of_fresh (by decide +kernel) (by decide +kernel) (by decide +kernel), by decide +kernel⟩
  have htext : (conjoined false).canonicalText = rejoined.plan.canonicalText := by decide +kernel
  obtain ⟨hsame, hstop, hnoted⟩ := told_apart_by_text (hplan false).1 (hplan false).2
  have hturn : Turn undoing.config ⟨"undo", [Rule.splitFilter, Rule.mergeFilter]⟩ 1
      { plan := conjoined false } rejoined := Pass.eq_ok_after (by decide +kernel)
  obtain ⟨text, hbegin⟩ := exists_canonicalText (hplan false).1.wellFormed
    ((validate_eq_ok (hplan false).1.wellFormed (hplan false).1.formulas).mp
      (hplan false).2).acyclic
  -- digests are not computed, since the texts are the same
  have hset : runSets undoing.config ([] ++ undoing.sets) { plan := conjoined false } =
      .ok () (noted ⟨"undo", [Rule.splitFilter, Rule.mergeFilter]⟩ rejoined) :=
    runSets_concat_eq_ok.mpr ⟨_, _, rfl, fingerprint_of_canonicalText hbegin,
      repeatSet_of_turn hturn
      (fingerprint_of_canonicalText (htext.symm.trans hbegin)) (by simp)⟩
  have hstops : StopsAt undoing (conjoined false) ⟨"undo", [Rule.splitFilter, Rule.mergeFilter]⟩
      [conjoined false] rejoined.plan := ⟨[], [], _, _, rfl, rfl, .last hturn, rfl, hset⟩
  have hrun := optimize_eq_ok.mpr ⟨rfl, (hplan false).2, _, hset, rfl⟩
  obtain ⟨left, earlier, now, hname, hleft, -⟩ := hnoted undoing _ _
    ⟨"undo", [Rule.splitFilter, Rule.mergeFilter]⟩ hrun
    (List.mem_append_right _ (List.mem_singleton_self _))
  refine ⟨hsame _ _ (hplan true).1 (hplan true).2 (hlegible false) (hlegible true)
    (by decide +kernel), hstops, ?_, _, _, left, earlier, now, hrun, hname, hleft⟩
  refine hstop _ _ _ _ hstops (by simp [hplan, hnow]) fun e he _ => ?_
  obtain rfl := List.mem_singleton.mp he
  exact ⟨htext, fun _ _ _ => 0, hlegible false, by decide +kernel⟩

end Dataflow.Optimizer

import Dataflow.Proofs.Plan.Checked
import Dataflow.Proofs.Rewrite.Runs

/-!
# One attempt to apply a rule

An attempt goes through the matches that were found. It passes over those that are gone or refused
(`PassesOver`), and the first other one decides: the rule changes the plan there (`Changes`), or its
check, its transform or the validation of what comes out of it fails (`Fails`). Nothing is assumed
of the rule (`transformFirst_cases`).
-/

namespace Dataflow

open Plan

namespace Pattern

variable {pattern : Pattern} {p q : Plan} {b : NodeId} {m : Match} {found : List Match}
  {ids : List NodeId}

/-! ## Where matches are found -/

theorem mem_matchesAt : ∀ {ids : List NodeId} {found : List Match},
    pattern.matchesAt p ids = .ok found →
      (m ∈ found ↔ ∃ b ∈ ids, pattern.matchAt p b = .ok (some m)) := by
  intro ids
  induction ids with
  | nil =>
    intro found h
    obtain rfl : [] = found := Except.ok.inj h
    simp
  | cons b ids ih =>
    intro found h
    unfold matchesAt at h
    obtain ⟨m?, hm?, h⟩ := Pass.except_bind_eq_ok.mp h
    cases m? with
    | none =>
      rw [ih h]
      simp [hm?]
    | some m' =>
      obtain ⟨rest, hrest, h⟩ := Pass.except_bind_eq_ok.mp h
      obtain rfl : m' :: rest = found := Except.ok.inj h
      rw [List.mem_cons, ih hrest]
      simp [hm?, eq_comm]

/-- What binding one more node comes to. -/
theorem bind_cons {a b : NodeId} {rest : List (NodeId × NodeId)} {pairs : Graph.Pairing} :
    pattern.bind p ((a, b) :: rest) pairs = match pairs.forward? a, pairs.backward? b with
      | some b', _ => if b' = b then pattern.bind p rest pairs else none
      | none, some _ => none
      | none, none =>
        match pattern.graph.vertices[a]?, (p.operator? b).map Operator.type with
        | some v, some t =>
          if v.content = t ∧ v.outs.length ≤ (p.successors b).length then
            pattern.bind p (v.outs.zip (p.successors b) ++ rest) ((a, b) :: pairs)
          else none
        | _, _ => none := by
  rw [bind]
  split
  · simp_all
  · simp_all
  · split <;> simp_all

/-- Only operators of the plan are bound to nodes of the pattern. -/
theorem contains_of_bind {stack : List (NodeId × NodeId)} {pairs result : Graph.Pairing}
    (h : pattern.bind p stack pairs = some result)
    (hpairs : ∀ x ∈ pairs, p.graph.contains x.2 = true) :
    ∀ x ∈ result, p.graph.contains x.2 = true := by
  induction stack, pairs using bind.induct pattern p with
  | case1 pairs =>
    rw [bind] at h
    exact Option.some.inj h ▸ hpairs
  | case2 pairs a rest b hb ih =>
    rw [bind_cons, hb] at h
    exact ih (by simpa using h) hpairs
  | case5 pairs a b rest hf hb v op hv hop hfits ih =>
    rw [bind_cons, hf, hb, hv, hop, Option.map_some] at h
    refine ih (by simpa [hfits] using h) fun x hx => ?_
    rcases List.mem_cons.mp hx with rfl | hx
    · exact contains_of_operator? hop
    · exact hpairs x hx
  | case6 pairs a b rest hf hb v op hv hop hfits =>
    rw [bind_cons, hf, hb, hv, hop, Option.map_some] at h
    dsimp only at h
    rw [if_neg hfits] at h
    simp at h
  | _ => simp_all [bind_cons]

theorem exists_of_mem_mapM {α β : Type} {f : α → Option β} {x : β} : ∀ {l : List α} {r : List β},
    l.mapM f = some r → x ∈ r → ∃ a ∈ l, f a = some x := by
  intro l
  induction l with
  | nil =>
    intro r h hx
    obtain rfl : [] = r := by simpa using h
    simp at hx
  | cons a l ih =>
    intro r h hx
    rw [List.mapM_cons] at h
    simp only [Option.bind_eq_bind, Option.bind_eq_some_iff, Option.pure_def,
      Option.some.injEq] at h
    obtain ⟨b, hb, rest, hrest, rfl⟩ := h
    rcases List.mem_cons.mp hx with rfl | hx
    · exact ⟨a, by simp, hb⟩
    · obtain ⟨a', ha', hx⟩ := ih hrest hx
      exact ⟨a', by simp [ha'], hx⟩

/-- An anchor and the operators found from it are in the plan. -/
theorem contains_of_matchAt (h : pattern.matchAt p b = .ok (some m)) :
    p.graph.contains b = true ∧ m.nodes.all p.contains = true := by
  unfold matchAt at h
  obtain ⟨root, -, h⟩ := Pass.except_bind_eq_ok.mp h
  simp only [Pass.except_pure, Except.ok.injEq, Option.bind_eq_bind, Option.bind_eq_some_iff,
    Option.pure_def, Option.some.injEq] at h
  obtain ⟨pairs, hbind, nodes, hnodes, rfl⟩ := h
  have hall := contains_of_bind hbind (by simp)
  constructor
  · -- the first pair to be bound is that of the root and the anchor
    rw [bind_cons] at hbind
    cases hop : p.operator? b with
    | none => simp [hop, Graph.Pairing.forward?, Graph.Pairing.backward?] at hbind
    | some op => exact contains_of_operator? hop
  · rw [List.all_eq_true]
    intro x hx
    obtain ⟨a, -, ha⟩ := exists_of_mem_mapM hnodes hx
    obtain ⟨y, hy, rfl⟩ := Option.map_eq_some_iff.mp ha
    exact hall y (List.mem_of_find?_eq_some hy)

/-- A plan without cycles is searched everywhere. -/
theorem mem_findMatches (hwf : p.graph.WellFormed) (h : pattern.findMatches p none = .ok found) :
    m ∈ found ↔ ∃ b, pattern.matchAt p b = .ok (some m) := by
  unfold findMatches at h
  obtain ⟨-, -, h⟩ := Pass.except_bind_eq_ok.mp h
  obtain ⟨order, horder, h⟩ := Pass.except_bind_eq_ok.mp h
  obtain ⟨-, hmem, -⟩ := Graph.topologicalOrder_spec hwf (Graph.orError_eq_ok.mp horder)
  rw [mem_matchesAt h]
  constructor
  · rintro ⟨b, -, hb⟩
    exact ⟨b, hb⟩
  · rintro ⟨b, hb⟩
    exact ⟨b, (hmem b).mpr (contains_of_matchAt hb).1, hb⟩

theorem bind_congr (h : SameChecks p q) (stack : List (NodeId × NodeId))
    (pairs : Graph.Pairing) : pattern.bind q stack pairs = pattern.bind p stack pairs := by
  have htype : ∀ b, (q.operator? b).map Operator.type = (p.operator? b).map Operator.type := by
    intro b
    have := congrArg (Option.map Operator.type) (h.checked b)
    simpa [Option.map_map, Function.comp_def] using this
  have hsuc : ∀ b, q.successors b = p.successors b := h.successors
  induction stack, pairs using bind.induct pattern p with
  | case1 pairs => rw [bind, bind]
  | case6 pairs a b rest hf hb v op hv hop hfits =>
    rw [bind_cons, bind_cons, hf, hb, hv, htype, hsuc, hop, Option.map_some]
    dsimp only
    rw [if_neg hfits, if_neg hfits]
  | _ => simp_all [bind_cons]

/-- Matches do not depend on what was derived or noted. -/
theorem matchAt_congr (h : SameChecks p q) : pattern.matchAt q b = pattern.matchAt p b := by
  unfold matchAt
  simp only [bind_congr h]

theorem matchesAt_congr (h : SameChecks p q) {ids : List NodeId} :
    pattern.matchesAt q ids = pattern.matchesAt p ids := by
  induction ids with
  | nil => rfl
  | cons b ids ih => rw [matchesAt, matchesAt, matchAt_congr h, ih]

/-- An operator is a match of a pattern of its type. -/
theorem IsSingle.exists_match {t : OperatorType} (h : pattern.IsSingle t) (hb : p.HasType b t) :
    pattern.matchAt p b = .ok (some ⟨[b]⟩) := by
  obtain ⟨op, hop, rfl⟩ := hb
  have hbind : pattern.bind p [(⟨0⟩, b)] [] = some [(⟨0⟩, b)] := by
    rw [bind_cons, h.first, hop]
    simp [Graph.Pairing.forward?, Graph.Pairing.backward?, bind_nil]
  unfold Pattern.matchAt
  rw [h.root, Pass.except_ok_bind, hbind, h.ids]
  rfl

/-- A pair of operators, of which the second is the first output of the first, is a match. -/
theorem IsPair.exists_match {t₁ t₂ : OperatorType} {c : NodeId} {rest : List NodeId}
    (h : pattern.IsPair t₁ t₂) (hsuc : p.graph.successors b = c :: rest) (hne : b ≠ c)
    (hb : p.HasType b t₁) (hc : p.HasType c t₂) :
    pattern.matchAt p b = .ok (some ⟨[b, c]⟩) := by
  obtain ⟨op, hop, rfl⟩ := hb
  obtain ⟨op', hop', rfl⟩ := hc
  have hsuc' : p.successors b = c :: rest := hsuc
  have hbind : pattern.bind p [(⟨0⟩, b)] [] = some [(⟨1⟩, c), (⟨0⟩, b)] := by
    rw [bind_cons, h.first, hop, hsuc']
    show (if op.type = op.type ∧ 1 ≤ (c :: rest).length then
      pattern.bind p [(⟨1⟩, c)] [(⟨0⟩, b)] else none) = _
    rw [if_pos ⟨rfl, by simp⟩, bind_cons, h.second, hop']
    simp [Graph.Pairing.forward?, Graph.Pairing.backward?, hne, bind_nil]
  unfold Pattern.matchAt
  rw [h.root, Pass.except_ok_bind, hbind, h.ids]
  rfl

end Pattern

namespace Rule

variable {rule : Rule} {p q : Plan} {m : Match} {found : List Match}
  {scope : Option (List NodeId)}

/-- The matches of the rule's pattern in a scope. -/
def findMatches (rule : Rule) (p : Plan) (scope : Option (List NodeId)) : Result (List Match) := do
  (← rule.pattern).findMatches p scope

theorem matches_of_findMatches (h : rule.findMatches p scope = .ok found) (hm : m ∈ found) :
    rule.Matches p m := by
  obtain ⟨pattern, hpattern, h⟩ := Pass.except_bind_eq_ok.mp h
  obtain ⟨-, -, h⟩ := Pass.except_bind_eq_ok.mp h
  obtain ⟨order, -, h⟩ := Pass.except_bind_eq_ok.mp h
  obtain ⟨b, -, hb⟩ := (Pattern.mem_matchesAt h).mp hm
  exact ⟨pattern, b, hpattern, hb⟩

theorem mem_findMatches (hwf : p.graph.WellFormed) (h : rule.findMatches p none = .ok found) :
    m ∈ found ↔ rule.Matches p m := by
  refine ⟨matches_of_findMatches h, ?_⟩
  rintro ⟨pattern, b, hpattern, hb⟩
  unfold findMatches at h
  rw [hpattern] at h
  exact (Pattern.mem_findMatches hwf h).mpr ⟨b, hb⟩

theorem Matches.nodes (h : rule.Matches p m) : m.nodes.all p.contains = true := by
  obtain ⟨pattern, b, -, hb⟩ := h
  exact (Pattern.contains_of_matchAt hb).2

theorem Matches.sameChecks (h : rule.Matches p m) (hq : SameChecks p q) : rule.Matches q m := by
  obtain ⟨pattern, b, hpattern, hb⟩ := h
  exact ⟨pattern, b, hpattern, (Pattern.matchAt_congr hq).trans hb⟩

theorem Matches.alike (h : rule.Matches p m) (hq : Alike p q) : rule.Matches q m :=
  h.sameChecks hq.sameChecks

end Rule

namespace Optimizer

variable {config : Config} {rule : Rule} {p q r : Plan} {m : Match} {found passed rest : List Match}
  {e : Error} {region : Region}

/-! ## Matches in turn -/

/-- None of the matches is taken: each is gone from the plan or refused by the check. -/
inductive PassesOver (rule : Rule) : List Match → Plan → Plan → Prop
  | done {p : Plan} : PassesOver rule [] p p
  | gone {m : Match} {rest : List Match} {p q : Plan} : m.nodes.all p.contains = false →
      PassesOver rule rest p q → PassesOver rule (m :: rest) p q
  | refused {m : Match} {rest : List Match} {p q r : Plan} : m.nodes.all p.contains = true →
      rule.check m p = .ok false q → PassesOver rule rest q r → PassesOver rule (m :: rest) p r

/-- The match passes the check and the rule is applied to it; what comes out is valid if that is
looked at. -/
structure Changes (config : Config) (rule : Rule) (m : Match) (p : Plan) (region : Region)
    (q : Plan) : Prop where
  there : m.nodes.all p.contains = true
  applied : ∃ t, rule.check m p = .ok true t ∧ rule.transform m t = .ok region q
  valid : config.validate = true → q.validate = .ok ()

/-- The check of the match fails, or its transform, or the validation of what comes out of it. -/
inductive Fails (config : Config) (rule : Rule) (m : Match) (p : Plan) : Error → Plan → Prop
  | check {e : Error} {q : Plan} : m.nodes.all p.contains = true → rule.check m p = .error e q →
      Fails config rule m p e q
  | transform {t : Plan} {e : Error} {q : Plan} : m.nodes.all p.contains = true →
      rule.check m p = .ok true t → rule.transform m t = .error e q → Fails config rule m p e q
  | validation {t : Plan} {region : Region} {e : Error} {q : Plan} :
      m.nodes.all p.contains = true → rule.check m p = .ok true t →
      rule.transform m t = .ok region q → config.validate = true → q.validate = .error e →
      Fails config rule m p (.brokenByRule rule.name e.message) q

theorem transformFirst_gone (h : m.nodes.all p.contains = false) :
    transformFirst config rule (m :: rest) p = transformFirst config rule rest p := by
  rw [transformFirst, Pass.bind_of_ok Pass.get_apply]
  simp only [h, Bool.not_false, if_true]

theorem transformFirst_refused (h : m.nodes.all p.contains = true)
    (hc : rule.check m p = .ok false q) :
    transformFirst config rule (m :: rest) p = transformFirst config rule rest q := by
  rw [transformFirst, Pass.bind_of_ok Pass.get_apply]
  simp only [h, Bool.not_true, Bool.false_eq_true, if_false]
  rw [Pass.bind_of_ok hc]
  rfl

theorem transformFirst_changes (h : Changes config rule m p region q) :
    transformFirst config rule (m :: rest) p = .ok (some (region.withNeighbors q)) q := by
  obtain ⟨hthere, ⟨t, hc, ht⟩, hvalid⟩ := h
  rw [transformFirst, Pass.bind_of_ok Pass.get_apply]
  simp only [hthere, Bool.not_true, Bool.false_eq_true, if_false]
  rw [Pass.bind_of_ok hc]
  simp only [Bool.not_true, Bool.false_eq_true, if_false]
  rw [Pass.bind_of_ok ht]
  by_cases hval : config.validate = true
  · rw [if_pos hval, Pass.bind_of_ok Pass.get_apply, hvalid hval]
    rfl
  · rw [if_neg hval]
    rfl

theorem transformFirst_fails (h : Fails config rule m p e q) :
    transformFirst config rule (m :: rest) p = .error e q := by
  have hthere : m.nodes.all p.contains = true := by cases h <;> assumption
  rw [transformFirst, Pass.bind_of_ok Pass.get_apply]
  simp only [hthere, Bool.not_true, Bool.false_eq_true, if_false]
  cases h with
  | check _ hc => exact Pass.bind_eq_error.mpr (.inl hc)
  | transform _ hc ht =>
    rw [Pass.bind_of_ok hc]
    exact Pass.bind_eq_error.mpr (.inl ht)
  | validation _ hc ht hval hinvalid =>
    rw [Pass.bind_of_ok hc]
    simp only [Bool.not_true, Bool.false_eq_true, if_false]
    rw [Pass.bind_of_ok ht, if_pos hval, Pass.bind_of_ok Pass.get_apply, hinvalid]
    rfl

/-- What becomes of a match. -/
theorem match_cases (config : Config) (rule : Rule) (m : Match) (p : Plan) :
    m.nodes.all p.contains = false ∨
    (m.nodes.all p.contains = true ∧ ∃ q, rule.check m p = .ok false q) ∨
    (∃ region q, Changes config rule m p region q) ∨ ∃ e q, Fails config rule m p e q := by
  cases hthere : m.nodes.all p.contains with
  | false => exact .inl rfl
  | true =>
    refine .inr ?_
    cases hc : rule.check m p with
    | error e q => exact .inr (.inr ⟨e, q, .check hthere hc⟩)
    | ok answer t =>
      cases answer with
      | false => exact .inl ⟨rfl, t, rfl⟩
      | true =>
        cases ht : rule.transform m t with
        | error e q => exact .inr (.inr ⟨e, q, .transform hthere hc ht⟩)
        | ok region q =>
          cases hq : q.validate with
          | ok _ => exact .inr (.inl ⟨region, q, hthere, ⟨t, hc, ht⟩, fun _ => hq⟩)
          | error e =>
            by_cases hval : config.validate = true
            · exact .inr (.inr ⟨_, q, .validation hthere hc ht hval hq⟩)
            · exact .inr (.inl ⟨region, q, hthere, ⟨t, hc, ht⟩, fun h => absurd h hval⟩)

/-- Some matches are passed over, and the one behind them decides. -/
def Decides (rule : Rule) (found : List Match) (p : Plan) (verdict : Match → Plan → Prop) : Prop :=
  ∃ passed m rest t, found = passed ++ m :: rest ∧ PassesOver rule passed p t ∧ verdict m t

theorem Decides.gone {verdict : Match → Plan → Prop} (h : m.nodes.all p.contains = false)
    (hrest : Decides rule rest p verdict) : Decides rule (m :: rest) p verdict := by
  obtain ⟨passed, m', behind, t, rfl, hpassed, hm'⟩ := hrest
  exact ⟨m :: passed, m', behind, t, rfl, .gone h hpassed, hm'⟩

theorem Decides.refused {verdict : Match → Plan → Prop} (h : m.nodes.all p.contains = true)
    (hc : rule.check m p = .ok false q) (hrest : Decides rule rest q verdict) :
    Decides rule (m :: rest) p verdict := by
  obtain ⟨passed, m', behind, t, rfl, hpassed, hm'⟩ := hrest
  exact ⟨m :: passed, m', behind, t, rfl, .refused h hc hpassed, hm'⟩

/-- How going through the matches ends. -/
theorem transformFirst_cases (config : Config) (rule : Rule) : ∀ (found : List Match) (p : Plan),
    match transformFirst config rule found p with
    | .ok none q => PassesOver rule found p q
    | .ok (some ids) q => Decides rule found p fun m t =>
        ∃ region, Changes config rule m t region q ∧ ids = region.withNeighbors q
    | .error e q => Decides rule found p fun m t => Fails config rule m t e q := by
  intro found
  induction found with
  | nil => exact fun p => .done
  | cons m rest ih =>
    intro p
    rcases match_cases config rule m p with h | ⟨h, q, hc⟩ | ⟨region, q, h⟩ | ⟨e, q, h⟩
    · rw [transformFirst_gone h]
      have hrest := ih p
      split at hrest
      · exact .gone h hrest
      · exact .gone h hrest
      · exact .gone h hrest
    · rw [transformFirst_refused h hc]
      have hrest := ih q
      split at hrest
      · exact .refused h hc hrest
      · exact .refused h hc hrest
      · exact .refused h hc hrest
    · rw [transformFirst_changes h]
      exact ⟨[], m, rest, p, rfl, .done, region, h, rfl⟩
    · rw [transformFirst_fails h]
      exact ⟨[], m, rest, p, rfl, .done, h⟩

theorem transformFirst_passed (h : PassesOver rule passed p q) :
    transformFirst config rule (passed ++ rest) p = transformFirst config rule rest q := by
  induction h with
  | done => rfl
  | gone h _ ih =>
    rw [List.cons_append, transformFirst_gone h]
    exact ih
  | refused h hc _ ih =>
    rw [List.cons_append, transformFirst_refused h hc]
    exact ih

theorem transformFirst_eq_error : transformFirst config rule found p = .error e q ↔
    Decides rule found p fun m t => Fails config rule m t e q := by
  constructor
  · intro h
    have := transformFirst_cases config rule found p
    rwa [h] at this
  · rintro ⟨passed, m, rest, t, rfl, hpassed, hfails⟩
    rw [transformFirst_passed hpassed]
    exact transformFirst_fails hfails

/-! ## The search and what follows -/

variable {scope : Option (List NodeId)} {region? : Option (List NodeId)}

theorem matchAndTransform_eq : matchAndTransform config rule scope p =
    (Plan.ofResult (rule.findMatches p scope) >>= transformFirst config rule) p := by
  unfold matchAndTransform Rule.findMatches
  cases rule.pattern with
  | error e => rfl
  | ok pattern => rfl

theorem matchAndTransform_eq_ok : matchAndTransform config rule scope p = .ok region? q ↔
    ∃ found, rule.findMatches p scope = .ok found ∧
      transformFirst config rule found p = .ok region? q := by
  simp only [matchAndTransform_eq, Pass.bind_eq_ok, ofResult_eq_ok, and_assoc]
  constructor
  · rintro ⟨found, _, hfound, rfl, h⟩
    exact ⟨found, hfound, h⟩
  · rintro ⟨found, hfound, h⟩
    exact ⟨found, p, hfound, rfl, h⟩

/-- An attempt fails if the search does or the match that decides. -/
theorem matchAndTransform_eq_error : matchAndTransform config rule scope p = .error e q ↔
    (rule.findMatches p scope = .error e ∧ p = q) ∨ ∃ found, rule.findMatches p scope = .ok found ∧
      Decides rule found p fun m t => Fails config rule m t e q := by
  simp only [matchAndTransform_eq, Pass.bind_eq_error, ofResult_eq_error, ofResult_eq_ok, and_assoc,
    ← transformFirst_eq_error]
  refine or_congr_right ⟨?_, ?_⟩
  · rintro ⟨found, _, hfound, rfl, h⟩
    exact ⟨found, hfound, h⟩
  · rintro ⟨found, hfound, h⟩
    exact ⟨found, p, hfound, rfl, h⟩

end Optimizer

end Dataflow

import Dataflow.Proofs.Rewrite.Runs

/-!
# The default rules behave

Splitting takes a key for each new filter, and merging one for each term of the conjunction it
builds. Since a conjunction weighs one more than its parts, the sum of the weights of all filters
bounds both (`total`): splitting takes from it what it adds to the next key, and merging gives back
no more than one for each filter. A plan for which these bounds lie below the number of keys
`HasRoom`, and on such a plan the rules keep the plan sound and valid.
-/

namespace Dataflow

open Dataflow.Graph Plan Formula

variable {p q r : Plan} {m : Match} {u w F G input z : NodeId} {f g l c : Formula} {k : Nat}
  {name : Option String}

/-! ## Room for keys -/

/-- The weight of the predicate of a filter and `k` more; nothing for other operators. -/
def Operator.filterWeight (k : Nat) (op : Operator) : Nat :=
  match op.operation with
  | .filter f => f.weight + k
  | _ => 0

namespace Plan

/-- The weight at a key, with `k` more for each filter. -/
def weightAt (k : Nat) (p : Plan) (id : NodeId) : Nat :=
  ((p.core? id).map (Operator.filterWeight k)).getD 0

/-- The weight of all filters, with `k` more for each. -/
def total (k : Nat) (p : Plan) : Nat := (p.graph.ids.map (p.weightAt k)).sum

theorem IsFilter.weightAt (h : p.IsFilter z name f) : p.weightAt k z = f.weight + k := by
  rw [Plan.weightAt, h]
  rfl

theorem weightAt_congr (h : q.core? z = p.core? z) : q.weightAt k z = p.weightAt k z := by
  rw [weightAt, h, weightAt]

theorem sum_map_of_eq_except {ids : List NodeId} {s t : NodeId → Nat} (hn : ids.Nodup)
    (hu : u ∈ ids) (h : ∀ z ∈ ids, z ≠ u → s z = t z) :
    (ids.map s).sum + t u = (ids.map t).sum + s u := by
  induction ids with
  | nil => simp at hu
  | cons a ids ih =>
    obtain ⟨ha, hn⟩ := List.nodup_cons.mp hn
    simp only [List.map_cons, List.sum_cons]
    by_cases hau : a = u
    · subst hau
      have : ids.map s = ids.map t := List.map_congr_left fun z hz =>
        h z (by simp [hz]) fun heq => ha (heq ▸ hz)
      rw [this]
      omega
    · have := ih hn (by simpa [Ne.symm hau] using hu) fun z hz => h z (by simp [hz])
      have := h a (by simp) hau
      omega

theorem sum_map_filter_ne {ids : List NodeId} {s : NodeId → Nat} (hn : ids.Nodup)
    (hw : w ∈ ids) : ((ids.filter (· != w)).map s).sum + s w = (ids.map s).sum := by
  induction ids with
  | nil => simp at hw
  | cons a ids ih =>
    obtain ⟨ha, hn⟩ := List.nodup_cons.mp hn
    by_cases haw : a = w
    · subst haw
      have : ids.filter (· != a) = ids := List.filter_eq_self.mpr fun z hz => by
        have : z ≠ a := fun heq => ha (heq ▸ hz)
        simpa using this
      rw [List.filter_cons_of_neg (by simp), this, List.map_cons, List.sum_cons, Nat.add_comm]
    · have := ih hn (by simpa [Ne.symm haw] using hw)
      rw [List.filter_cons_of_pos (by simpa using haw)]
      simp only [List.map_cons, List.sum_cons]
      omega

theorem Extends.total (h : Extends p q) : q.total k = p.total k := by
  rw [Plan.total, Plan.total, h.alike.ids]
  exact congrArg List.sum (List.map_congr_left fun z _ => weightAt_congr h.alike.core?)

theorem mem_ids_of_isFilter (hp : p.graph.WellFormed) (h : p.IsFilter z name f) :
    z ∈ p.graph.ids :=
  (hp.mem_ids z).mpr h.hasType.contains

/-- Splitting leaves the weight with one more for each filter, and takes one from the weight. -/
theorem Cascade.total_split {nl nr : Option String} (h : Cascade p q u w f l g)
    (hp : p.graph.WellFormed) (hl : q.IsFilter u nl l) (hr : q.IsFilter w nr g)
    (hids : q.graph.ids = p.graph.ids ++ [w]) : q.total k + 1 = p.total k + k := by
  obtain ⟨name, hu⟩ := h.whole
  have hsum := sum_map_of_eq_except (s := q.weightAt k) (t := p.weightAt k) hp.ids_nodup
    (mem_ids_of_isFilter hp hu) fun z hz hzu => weightAt_congr (h.other z hzu
      (h.ne_of_contains ((hp.mem_ids z).mp hz)))
  rw [total, total, hids, List.map_append, List.sum_append, List.map_singleton, List.sum_singleton,
    hr.weightAt]
  rw [hl.weightAt, hu.weightAt, h.conjunction.weight] at hsum
  omega

theorem Cascade.total_merge {nu nf ng : Option String} (h : Cascade q p u w c f g)
    (hp : p.graph.WellFormed) (hu : q.IsFilter u nu c) (hf : p.IsFilter u nf f)
    (hg : p.IsFilter w ng g) (hids : q.graph.ids = p.graph.ids.filter (· != w)) :
    q.total 1 = p.total 1 := by
  have hfilter := sum_map_filter_ne (s := p.weightAt 1) hp.ids_nodup (mem_ids_of_isFilter hp hg)
  have hmem : u ∈ p.graph.ids.filter (· != w) :=
    List.mem_filter.mpr ⟨mem_ids_of_isFilter hp hf, by simpa using h.ne⟩
  have hsum := sum_map_of_eq_except (s := q.weightAt 1) (t := p.weightAt 1)
    (hp.ids_nodup.filter _) hmem fun z hz hzu => (weightAt_congr (h.other z hzu (by
      have := (List.mem_filter.mp hz).2
      simpa using this))).symm
  rw [total, total, hids]
  rw [hu.weightAt, hf.weightAt, h.conjunction.weight] at hsum
  rw [hg.weightAt] at hfilter
  omega

/-- Two filters weigh no more than all of them. -/
theorem weight_add_le_total {nf ng : Option String} (hp : p.graph.WellFormed)
    (hf : p.IsFilter u nf f) (hg : p.IsFilter w ng g) (hne : u ≠ w) :
    f.weight + g.weight + 2 ≤ p.total 1 := by
  have hfilter := sum_map_filter_ne (s := p.weightAt 1) hp.ids_nodup (mem_ids_of_isFilter hp hg)
  have hmem : u ∈ p.graph.ids.filter (· != w) :=
    List.mem_filter.mpr ⟨mem_ids_of_isFilter hp hf, by simpa using hne⟩
  have hrest := sum_map_filter_ne (s := p.weightAt 1) (hp.ids_nodup.filter _) hmem
  rw [hf.weightAt] at hrest
  rw [hg.weightAt] at hfilter
  rw [total]
  omega

theorem conjoinable_of_total {nf ng : Option String} (hp : p.Sound) (hv : p.Valid)
    (hf : p.IsFilter u nf f) (hg : p.IsFilter w ng g) (hne : u ≠ w) (htotal : p.total 1 < 2 ^ 64) :
    f.Conjoinable g := by
  obtain ⟨hfs, hfv, -⟩ := hf.predicate hp hv
  obtain ⟨hgs, hgv, -⟩ := hg.predicate hp hv
  have := weight_add_le_total hp.wellFormed hf hg hne
  exact conjoinable_of_weight hfs hfv hgs hgv (by omega)

theorem Pushes.total {path : List NodeId} {f' : Formula} {name' : Option String}
    (h : Pushes p q input F G path f f') (hG : p.IsFilter G name f)
    (hG' : q.IsFilter G name' f') (hw : f'.weight = f.weight)
    (hids : q.graph.ids = p.graph.ids) : q.total k = p.total k := by
  rw [Plan.total, Plan.total, hids]
  refine congrArg List.sum (List.map_congr_left fun z _ => ?_)
  by_cases hz : z = G
  · rw [hz, hG.weightAt, hG'.weightAt, hw]
  · exact weightAt_congr (h.other z hz)

/-- There are keys enough to split all conjunctions and to build others of the same weight. -/
def HasRoom (p : Plan) : Prop := p.graph.nextKey.toNat + p.total 1 < 2 ^ 64

instance : Decidable p.HasRoom := inferInstanceAs (Decidable (_ < _))

/-- A plan with what the optimizer asks of it. -/
structure AdmittedPlan where
  plan : Plan
  sound : plan.Sound
  valid : plan.validate = .ok ()
  hasRoom : plan.HasRoom

/-- The plan that a pass makes of the empty one, if it passes these checks. -/
def AdmittedPlan.make {β : Type} (edit : Edit β) (h : ((made edit).graph.WellFormed ∧
    (made edit).graph.KeysBelow ∧ ∀ x ∈ (made edit).graph.vertices.toList, IsFresh x.2.content) ∧
    (made edit).validate = .ok () ∧ (made edit).HasRoom) : AdmittedPlan where
  plan := made edit
  sound := sound_of_fresh h.1.1 h.1.2.1 h.1.2.2
  valid := h.2.1
  hasRoom := h.2.2

/-- A plan on which conjunctions can be split, and merged later. -/
structure CanSplit (p : Plan) : Prop where
  sound : p.Sound
  valid : p.Valid
  keys : p.graph.nextKey.toNat + p.total 0 < 2 ^ 64
  total : p.total 1 < 2 ^ 64

/-- A plan on which filters can be merged. -/
structure CanMerge (p : Plan) : Prop where
  sound : p.Sound
  valid : p.Valid
  total : p.total 1 < 2 ^ 64

theorem weightAt_le : p.weightAt 0 z ≤ p.weightAt 1 z := by
  unfold weightAt
  cases p.core? z with
  | none => exact Nat.le_refl _
  | some op =>
    simp only [Option.map_some, Option.getD_some, Operator.filterWeight]
    split <;> omega

theorem total_le : p.total 0 ≤ p.total 1 := by
  unfold total
  induction p.graph.ids with
  | nil => exact Nat.le_refl _
  | cons a ids ih =>
    simp only [List.map_cons, List.sum_cons]
    exact Nat.add_le_add weightAt_le ih

theorem HasRoom.canSplit (h : p.HasRoom) (hp : p.Sound) (hv : p.Valid) : p.CanSplit := by
  unfold HasRoom at h
  have := total_le (p := p)
  exact ⟨hp, hv, by omega, by omega⟩

theorem CanSplit.canMerge (h : p.CanSplit) : p.CanMerge := ⟨h.sound, h.valid, h.total⟩

theorem fitness_canSplit : Fitness CanSplit where
  sound _ h := h.sound
  valid _ h := h.valid
  asked _ _ h hq := ⟨h.sound.extends hq, hq.alike.valid h.valid, by
    rw [hq.alike.nextKey, hq.total]; exact h.keys, by rw [hq.total]; exact h.total⟩

theorem fitness_canMerge : Fitness CanMerge where
  sound _ h := h.sound
  valid _ h := h.valid
  asked _ _ h hq := ⟨h.sound.extends hq, hq.alike.valid h.valid, by rw [hq.total]; exact h.total⟩

end Plan

/-! ## Splitting -/

namespace Rule

variable {e : Error} {region : Region} {b : Bool}

/-- A match of the rule is a filter. -/
theorem splitFilter_matches (h : splitFilter.Matches p m) :
    ∃ u name f, m.anchor = .ok u ∧ p.IsFilter u name f := by
  obtain ⟨pattern, u, hpattern, hat⟩ := h
  obtain ⟨pattern', hchain, hsingle⟩ := Pattern.exists_single .filter
  obtain rfl : pattern' = pattern := Except.ok.inj (hchain.symm.trans hpattern)
  obtain ⟨hnodes, htype⟩ := hsingle.matchAt hat
  obtain ⟨name, f, hf⟩ := htype.isFilter
  exact ⟨u, name, f, by simp [Match.anchor, Match.get, hnodes], hf⟩

theorem splitFilter_check (hm : m.anchor = .ok u) (hu : p.IsFilter u name f) :
    splitFilter.check m p = .ok f.isConjunction p := by
  unfold splitFilter
  dsimp only
  rw [Pass.bind_of_ok (ofResult_eq_ok.mpr ⟨hm, rfl⟩), Pass.bind_of_ok Pass.get_apply,
    Pass.bind_of_ok (ofResult_eq_ok.mpr ⟨filterPredicate_eq_ok.mpr ⟨name, hu⟩, rfl⟩)]
  rfl

theorem one_le_weight (hc : IsConjunction f l g) : 1 ≤ f.weight := by
  rw [hc.weight]
  omega

/-- An application to a match that passed the check puts a cascade in the place of a filter. -/
theorem splitFilter_applies (hp : p.CanSplit) (hm : splitFilter.Matches p m) (hq : Extends p q)
    (hc : splitFilter.check m q = .ok true r) : ∃ region r' u w f l g,
      splitFilter.transform m r = .ok region r' ∧ r'.CanSplit ∧ Extends p r ∧
        Cascade r r' u w f l g := by
  obtain ⟨u, name, f, hanchor, hu⟩ := splitFilter_matches hm
  have hfit := fitness_canSplit.asked p q hp hq
  have huq := hq.alike.isFilter.mpr hu
  rw [splitFilter_check hanchor huq] at hc
  obtain ⟨hconj, rfl⟩ : f.isConjunction = true ∧ q = r := by simpa using hc
  have hkeys := hfit.keys
  have hwf := hfit.sound.wellFormed
  -- a conjunction weighs something, so that there is a key
  obtain ⟨hfs, hfv, -⟩ := huq.predicate hfit.sound hfit.valid
  obtain ⟨l, s, -, -, -, -, -, hand⟩ := splitConjunction_spec hfs hfv hconj
  have hle : f.weight ≤ q.total 0 := by
    have := sum_map_filter_ne (s := q.weightAt 0) hwf.ids_nodup (mem_ids_of_isFilter hwf huq)
    rw [huq.weightAt] at this
    rw [total]
    omega
  have := one_le_weight hand
  obtain ⟨region, q', l', s', hrun, hs, hv, -, hcascade, hl, hr, hids, hkey, -⟩ :=
    splitFilter_spec hfit.sound hfit.valid hanchor huq hconj
  refine ⟨region, q', u, _, f, l', s', hrun, ⟨hs (by omega), hv, ?_, ?_⟩, hq, hcascade⟩
  · have h0 := hcascade.total_split (k := 0) hwf hl hr hids
    have hnext : (q.graph.nextKey + 1).toNat = q.graph.nextKey.toNat + 1 := by
      rw [UInt64.toNat_add]
      exact Nat.mod_eq_of_lt (by simpa using (by omega : q.graph.nextKey.toNat + 1 < 2 ^ 64))
    rw [hkey, hnext]
    omega
  · have h1 := hcascade.total_split (k := 1) hwf hl hr hids
    have htotal := hfit.total
    omega

theorem splitFilter_behaves : splitFilter.Behaves CanSplit fun _ _ => False where
  rooted := by
    obtain ⟨pattern, hchain, hsingle⟩ := Pattern.exists_single .filter
    exact ⟨pattern, _, hchain, hsingle.root⟩
  check p q m hp hm hq := by
    obtain ⟨u, name, f, hanchor, hu⟩ := splitFilter_matches hm
    rw [splitFilter_check hanchor (hq.alike.isFilter.mpr hu)]
    refine ⟨fun b r h => ?_, fun e r h => by simp at h⟩
    obtain ⟨-, rfl⟩ : _ ∧ q = r := by simpa using h
    exact .refl hq.coherent
  transform p q r m hp hm hq hc := by
    obtain ⟨region, q', u, w, f, l, g, hrun, hfit, -⟩ := splitFilter_applies hp hm hq hc
    rw [hrun]
    refine ⟨fun region' r' h => ?_, fun e r' h => by simp at h⟩
    obtain ⟨-, rfl⟩ : _ ∧ q' = r' := by simpa using h
    exact hfit

/-! ## Merging -/

/-- A match of the rule consists of a filter and its first output, which is a filter, too. -/
theorem mergeFilter_matches (h : mergeFilter.Matches p m) :
    ∃ u w rest nu nw f g, m.get 0 = .ok u ∧ m.get 1 = .ok w ∧ p.graph.successors u = w :: rest ∧
      p.IsFilter u nu f ∧ p.IsFilter w nw g := by
  obtain ⟨pattern, u, hpattern, hat⟩ := h
  obtain ⟨pattern', hchain, hpair⟩ := Pattern.exists_pair .filter
  obtain rfl : pattern' = pattern := Except.ok.inj (hchain.symm.trans hpattern)
  obtain ⟨w, rest, hnodes, hsuc, htu, htw⟩ := hpair.matchAt hat
  obtain ⟨nu, f, hf⟩ := htu.isFilter
  obtain ⟨nw, g, hg⟩ := htw.isFilter
  exact ⟨u, w, rest, nu, nw, f, g, by simp [Match.get, hnodes], by simp [Match.get, hnodes], hsuc,
    hf, hg⟩

theorem mergeFilter_check (hm : m.get 0 = .ok u) :
    mergeFilter.check m p = .ok ((p.graph.successors u).length == 1) p := by
  unfold mergeFilter
  dsimp only
  rw [Pass.bind_of_ok Pass.get_apply, Pass.bind_of_ok (ofResult_eq_ok.mpr ⟨hm, rfl⟩)]
  rfl

/-- An application to a match that passed the check puts a filter in the place of a cascade. -/
theorem mergeFilter_applies (hp : p.CanMerge) (hm : mergeFilter.Matches p m) (hq : Extends p q)
    (hc : mergeFilter.check m q = .ok true r) : ∃ region r' u w c f g,
      mergeFilter.transform m r = .ok region r' ∧ r'.CanMerge ∧ Extends p r ∧
        Cascade r' r u w c f g := by
  obtain ⟨u, w, rest, nu, nw, f, g, hmu, hmw, hsuc, hf, hg⟩ := mergeFilter_matches hm
  have hfit := fitness_canMerge.asked p q hp hq
  rw [mergeFilter_check hmu] at hc
  obtain ⟨hlen, rfl⟩ : (q.graph.successors u).length = 1 ∧ q = r := by simpa using hc
  rw [hq.alike.successors, hsuc] at hlen
  obtain rfl : rest = [] := by simpa using hlen
  have hfq := hq.alike.isFilter.mpr hf
  have hgq := hq.alike.isFilter.mpr hg
  have hsucq := (hq.alike.successors u).trans hsuc
  have hwf := hfit.sound.wellFormed
  have hroom := conjoinable_of_total hfit.sound hfit.valid hfq hgq
    (hwf.ne_of_edge (by simp [hsucq])) hfit.total
  obtain ⟨region, q', c, hrun, hs, hv, hcascade, hu, hids, -⟩ :=
    mergeFilter_spec hfit.sound hfit.valid hmu hmw hfq hgq hsucq hroom
  refine ⟨region, q', u, w, c, f, g, hrun, ⟨hs, hv, ?_⟩, hq, hcascade⟩
  rw [hcascade.total_merge hwf hu hfq hgq hids]
  exact hfit.total

theorem mergeFilter_behaves : mergeFilter.Behaves CanMerge fun _ _ => False where
  rooted := by
    obtain ⟨pattern, hchain, hpair⟩ := Pattern.exists_pair .filter
    exact ⟨pattern, _, hchain, hpair.root⟩
  check p q m hp hm hq := by
    obtain ⟨u, w, rest, nu, nw, f, g, hmu, -⟩ := mergeFilter_matches hm
    rw [mergeFilter_check hmu]
    refine ⟨fun b r h => ?_, fun e r h => by simp at h⟩
    obtain ⟨-, rfl⟩ : _ ∧ q = r := by simpa using h
    exact .refl hq.coherent
  transform p q r m hp hm hq hc := by
    obtain ⟨region, q', u, w, c, f, g, hrun, hfit, -⟩ := mergeFilter_applies hp hm hq hc
    rw [hrun]
    refine ⟨fun region' r' h => ?_, fun e r' h => by simp at h⟩
    obtain ⟨-, rfl⟩ : _ ∧ q' = r' := by simpa using h
    exact hfit

/-! ## Moving up -/

/-- Why moving filters up fails: a schema cannot be derived, or there is a filter to be moved, but
the schema of the `ForEach` is not known. -/
def MoveFault (p : Plan) (e : Error) : Prop :=
  Stuck p e ∨ (e = .invariant .outputSchemaUnknown ∧ ∃ F found, p.HasType F .forEach ∧
    eligibleFilter F p = .ok (some found) p ∧ Unknown p F)

theorem filterAboveForEach_matches (h : filterAboveForEach.Matches p m) :
    ∃ F, m.get 0 = .ok F ∧ p.HasType F .forEach := by
  obtain ⟨pattern, F, hpattern, hat⟩ := h
  obtain ⟨pattern', hchain, hpair⟩ := Pattern.exists_pair .forEach
  obtain rfl : pattern' = pattern := Except.ok.inj (hchain.symm.trans hpattern)
  obtain ⟨w, rest, hnodes, -, htF, -⟩ := hpair.matchAt hat
  exact ⟨F, by simp [Match.get, hnodes], htF⟩

/-- The check is whether the search finds something. -/
theorem filterAboveForEach_check_eq_ok (hm : m.get 0 = .ok F) :
    filterAboveForEach.check m p = .ok b q ↔
      ∃ found, eligibleFilter F p = .ok found q ∧ found.isSome = b := by
  unfold filterAboveForEach
  dsimp only
  rw [Pass.bind_of_ok (ofResult_eq_ok.mpr ⟨hm, rfl⟩), Pass.bind_eq_ok]
  constructor
  · rintro ⟨found, t, hfound, h⟩
    obtain ⟨rfl, rfl⟩ := EStateM.Result.ok.inj h
    exact ⟨found, hfound, rfl⟩
  · rintro ⟨found, hfound, rfl⟩
    exact ⟨found, q, hfound, rfl⟩

theorem filterAboveForEach_check (hp : p.Ready) (hm : m.get 0 = .ok F) (hq : Extends p q) :
    (∀ b r, filterAboveForEach.check m q = .ok b r → Extends q r ∧
      (b = true → ∃ found, eligibleFilter F r = .ok (some found) r)) ∧
    ∀ e r, filterAboveForEach.check m q = .error e r → Stuck p e := by
  have hrun : filterAboveForEach.check m q = (eligibleFilter F >>= fun found =>
      pure found.isSome) q := by
    unfold filterAboveForEach
    dsimp only
    rw [Pass.bind_of_ok (ofResult_eq_ok.mpr ⟨hm, rfl⟩)]
  obtain ⟨hok, herror⟩ := Asks.eligibleFilter (F := F) hp q hq
  rw [hrun]
  refine ⟨fun b r h => ?_, fun e r h => ?_⟩
  · obtain ⟨found, r', hfound, h⟩ := Pass.bind_eq_ok.mp h
    obtain ⟨rfl, rfl⟩ : found.isSome = b ∧ r' = r := by simpa using h
    obtain ⟨hext, hagain⟩ := hok found r' hfound
    refine ⟨hext, fun hsome => ?_⟩
    obtain ⟨x, rfl⟩ := Option.isSome_iff_exists.mp hsome
    exact ⟨x, hagain r' (.refl hext.coherent)⟩
  · rcases Pass.bind_eq_error.mp h with h | ⟨_, _, -, h⟩
    · exact herror e r h
    · simp at h

/-- An application to a match that passed the check moves a filter up, or it fails. -/
theorem filterAboveForEach_applies (hp : p.CanMerge) (hm : filterAboveForEach.Matches p m)
    (hq : Extends p q) (hc : filterAboveForEach.check m q = .ok true r) : Extends p r ∧
      ((∃ region r' input F G path f f', filterAboveForEach.transform m r = .ok region r' ∧
        r'.CanMerge ∧ eligibleFilter F r = .ok (some (input, G)) r ∧
          Pushes r r' input F G path f f' ∧ MovedOver r input F f f') ∨
      ∃ e r', filterAboveForEach.transform m r = .error e r' ∧ MoveFault r e) := by
  obtain ⟨F, hF, htF⟩ := filterAboveForEach_matches hm
  obtain ⟨hok, -⟩ := filterAboveForEach_check (hp.sound.ready hp.valid) hF hq
  obtain ⟨hqr, hsome⟩ := hok true r hc
  obtain ⟨⟨input, G⟩, hfound⟩ := hsome rfl
  have hpr := hq.trans hqr
  have hfit := fitness_canMerge.asked p r hp hpr
  have htFr := hpr.alike.symm.hasType htF
  refine ⟨hpr, ?_⟩
  rcases filterAboveForEach_spec hfit.sound hfit.valid htFr hF hfound with
    ⟨region, q', path, name, f, f', hrun, hs, hv, hpushes, hover, hG, hG', hids, -⟩ |
    ⟨e, q', hrun, hfault⟩
  · obtain ⟨_, _, _, _, _, _, hmoved⟩ := id hover
    obtain ⟨hfs, hfv, -⟩ := hG.predicate hfit.sound hfit.valid
    refine .inl ⟨region, q', input, F, G, path, f, f', hrun, ⟨hs, hv, ?_⟩, hfound, hpushes, hover⟩
    rw [hpushes.total hG hG' (hmoved.weight hfs hfv) hids]
    exact hfit.total
  · refine .inr ⟨e, q', hrun, ?_⟩
    rcases hfault with hstuck | ⟨he, hunknown⟩
    · exact .inl hstuck
    · exact .inr ⟨he, F, _, htFr, hfound, hunknown⟩

theorem filterAboveForEach_behaves : filterAboveForEach.Behaves CanMerge MoveFault where
  rooted := by
    obtain ⟨pattern, hchain, hpair⟩ := Pattern.exists_pair .forEach
    exact ⟨pattern, _, hchain, hpair.root⟩
  check p q m hp hm hq := by
    obtain ⟨F, hF, -⟩ := filterAboveForEach_matches hm
    have hready := (hp.sound.extends hq).ready (hq.alike.valid hp.valid)
    obtain ⟨hok, herror⟩ := filterAboveForEach_check hready hF (.refl hq.coherent)
    exact ⟨fun b r h => (hok b r h).1, fun e r h => .inl (herror e r h)⟩
  transform p q r m hp hm hq hc := by
    rcases (filterAboveForEach_applies hp hm hq hc).2 with
      ⟨region, q', input, F, G, path, f, f', hrun, hfit, -⟩ | ⟨e, q', hrun, hfault⟩
    · rw [hrun]
      refine ⟨fun region' r' h => ?_, fun e r' h => by simp at h⟩
      obtain ⟨-, rfl⟩ : _ ∧ q' = r' := by simpa using h
      exact hfit
    · rw [hrun]
      refine ⟨fun region' r' h => by simp at h, fun e' r' h => ?_⟩
      obtain ⟨rfl, -⟩ : e = e' ∧ q' = r' := by simpa using h
      exact hfault

end Rule

/-! ## A whole run -/

/-- The default rule sets, each gone through, lead from one plan to the other. -/
def OptimizesTo (p r : Plan) : Prop :=
  ∃ p₁ p₂, Reaches [Rule.splitFilter] p p₁ ∧ Reaches [Rule.filterAboveForEach] p₁ p₂ ∧
    Reaches [Rule.mergeFilter] p₂ r

/-- Moving filters up failed on a plan that was reached by it after splitting. -/
def MovingFails (p : Plan) (cause : Error) : Prop :=
  ∃ p₁ r, Reaches [Rule.splitFilter] p p₁ ∧ Reaches [Rule.filterAboveForEach] p₁ r ∧
    r.CanMerge ∧ Rule.MoveFault r cause

namespace Optimizer

variable {config : Config} {e : Error} {report : Report} {s s' : Progress} {n : Nat}

theorem runSets_spec (config : Config) (hs : s.plan.CanSplit) :
    match runSets config Rule.defaultSets s with
    | .ok _ s' => OptimizesTo s.plan s'.plan ∧ s'.plan.CanMerge
    | .error e _ => config.failurePolicy = .abort ∧ ∃ cause,
      e = ruleError Rule.filterAboveForEach.name cause ∧ MovingFails s.plan cause := by
  have hsplit : ∀ rule ∈ [Rule.splitFilter], rule.Behaves CanSplit fun _ _ => False := by
    simpa using Rule.splitFilter_behaves
  have hmove : ∀ rule ∈ [Rule.filterAboveForEach], rule.Behaves CanMerge Rule.MoveFault := by
    simpa using Rule.filterAboveForEach_behaves
  have hmerge : ∀ rule ∈ [Rule.mergeFilter], rule.Behaves CanMerge fun _ _ => False := by
    simpa using Rule.mergeFilter_behaves
  obtain ⟨d, hd⟩ := fingerprint_spec fitness_canSplit hs
  unfold Rule.defaultSets runSets
  rw [Pass.bind_of_ok hd]
  -- conjunctions are split
  have h₁ : Ends config [Rule.splitFilter] CanSplit (fun _ _ => False) s.plan
      (repeatSet config ⟨"split", [Rule.splitFilter]⟩ config.maxIterations 1 [d] s) :=
    repeatSet_spec fitness_canSplit hsplit hs
  cases hrun₁ : repeatSet config ⟨"split", [Rule.splitFilter]⟩ config.maxIterations 1 [d] s with
  | error e s₁ =>
    rw [hrun₁] at h₁
    obtain ⟨-, _, -, _, -, _, -, -, hfalse⟩ := h₁
    exact hfalse.elim
  | ok u s₁ =>
  rw [hrun₁] at h₁
  obtain ⟨hreach₁, hfit₁⟩ := h₁
  rw [Pass.bind_of_ok hrun₁]
  -- filters are moved up
  obtain ⟨d₁, hd₁⟩ := fingerprint_spec fitness_canMerge hfit₁.canMerge
  unfold runSets
  rw [Pass.bind_of_ok hd₁]
  have h₂ : Ends config [Rule.filterAboveForEach] CanMerge Rule.MoveFault s₁.plan
      (repeatSet config ⟨"pushdown", [Rule.filterAboveForEach]⟩ config.maxIterations 1 [d₁] s₁) :=
    repeatSet_spec fitness_canMerge hmove hfit₁.canMerge
  cases hrun₂ : repeatSet config ⟨"pushdown", [Rule.filterAboveForEach]⟩ config.maxIterations 1
      [d₁] s₁ with
  | error e s₂ =>
    rw [hrun₂] at h₂
    obtain ⟨habort, rule, hrule, cause, rfl, r, hr, hfit, hfault⟩ := h₂
    obtain rfl := List.mem_singleton.mp hrule
    rw [Pass.bind_eq_error.mpr (.inl hrun₂)]
    exact ⟨habort, cause, rfl, s₁.plan, r, hreach₁, hr, hfit, hfault⟩
  | ok u s₂ =>
  rw [hrun₂] at h₂
  obtain ⟨hreach₂, hfit₂⟩ := h₂
  rw [Pass.bind_of_ok hrun₂]
  -- filters are merged
  obtain ⟨d₂, hd₂⟩ := fingerprint_spec fitness_canMerge hfit₂
  unfold runSets
  rw [Pass.bind_of_ok hd₂]
  have h₃ : Ends config [Rule.mergeFilter] CanMerge (fun _ _ => False) s₂.plan
      (repeatSet config ⟨"merge", [Rule.mergeFilter]⟩ config.maxIterations 1 [d₂] s₂) :=
    repeatSet_spec fitness_canMerge hmerge hfit₂
  cases hrun₃ : repeatSet config ⟨"merge", [Rule.mergeFilter]⟩ config.maxIterations 1 [d₂] s₂ with
  | error e s₃ =>
    rw [hrun₃] at h₃
    obtain ⟨-, _, -, _, -, _, -, -, hfalse⟩ := h₃
    exact hfalse.elim
  | ok u s₃ =>
  rw [hrun₃] at h₃
  rw [Pass.bind_of_ok hrun₃]
  exact ⟨⟨s₁.plan, s₂.plan, hreach₁, hreach₂, h₃.1⟩, h₃.2⟩

/-- What a run with the default rules comes to on a plan with room for keys. -/
theorem optimize_spec (hp : p.Sound) (hv : p.Valid) (hroom : p.HasRoom)
    (hconfig : config.check = .ok ()) :
    match ({ config } : Optimizer).optimize p with
    | .ok _ q => ∃ r, OptimizesTo p r ∧ r.CanMerge ∧
      if config.pruneMapKeys then ∃ n, pruneMapKeys r = .ok n q else q = r
    | .error e _ => (config.failurePolicy = .abort ∧ ∃ cause,
        e = ruleError Rule.filterAboveForEach.name cause ∧ MovingFails p cause) ∨
      (config.pruneMapKeys = true ∧ ∃ r q, OptimizesTo p r ∧ r.CanMerge ∧
        pruneMapKeys r = .error e q) := by
  have hvalid := (validate_eq_ok hp.wellFormed hp.formulas).mpr hv
  have hstart : (onPlan do
      Plan.ofResult config.check
      Plan.ofResult (← get).validate : Run Unit) { plan := p } = .ok () { plan := p } := by
    unfold onPlan
    rw [Pass.bind_of_ok (ofResult_eq_ok.mpr ⟨hconfig, rfl⟩), Pass.bind_of_ok Pass.get_apply,
      hvalid]
    rfl
  have hsets := runSets_spec config (s := { plan := p }) (hroom.canSplit hp hv)
  unfold optimize Optimizer.run
  dsimp only
  rw [Pass.bind_of_ok hstart]
  cases hrun : runSets config Rule.defaultSets { plan := p } with
  | error e s =>
    rw [hrun] at hsets
    rw [Pass.bind_eq_error.mpr (.inl hrun)]
    exact .inl hsets
  | ok u s =>
    rw [hrun] at hsets
    rw [Pass.bind_of_ok hrun]
    by_cases hprune : config.pruneMapKeys = true
    · rw [if_pos hprune]
      cases hkeys : pruneMapKeys s.plan with
      | error e q =>
        have : onPlan pruneMapKeys s = .error e { s with plan := q } := by
          unfold onPlan; rw [hkeys]
        rw [Pass.bind_eq_error.mpr (.inl this)]
        exact .inr ⟨hprune, s.plan, q, hsets.1, hsets.2, hkeys⟩
      | ok n q =>
        have : onPlan pruneMapKeys s = .ok n { s with plan := q } := by
          unfold onPlan; rw [hkeys]
        rw [Pass.bind_of_ok this]
        exact ⟨s.plan, hsets.1, hsets.2, by rw [if_pos hprune]; exact ⟨n, hkeys⟩⟩
    · rw [if_neg hprune]
      exact ⟨s.plan, hsets.1, hsets.2, by rw [if_neg hprune]⟩

end Optimizer

end Dataflow

import Dataflow.Proofs.Plan.Identities
import Dataflow.Proofs.Rewrite.Eligible

/-!
# The rules for filters: their success and their matches

On a sound and valid plan splitting and merging succeed where the match is right and there is room
for new keys, and leave a sound and valid plan that is related to the one before. Moving a filter
fails only where a schema cannot be derived or that of the `ForEach` is not known.
-/

namespace Dataflow

namespace Plan

open Dataflow.Graph Formula

variable {p q r : Plan} {a b x y z id u w F G input : NodeId} {op : Operator} {f g : Formula}
  {name : Option String} {m : Match}

/-! ## Splitting -/

/-- The outputs of a filter may be led from elsewhere. -/
theorem Valid.takesRows (hv : p.Valid) (hp : p.Sound) (hu : p.HasType u .filter)
    (hs : z ∈ p.graph.successors u) : p.TakesRows z := by
  obtain ⟨op, hop⟩ := exists_operator? (hp.wellFormed.target hs)
  have hpre := (hp.wellFormed.edge u z).mp hs
  have hload : op.type ≠ .load := fun hload => by
    exact hu.not (by simp) ((hv.operators z op hop).load hload u hpre)
  refine ⟨op.type, ⟨op, hop, rfl⟩, hload, ?_⟩
  cases hm : op.type.allowsMultipleInputs with
  | true => exact .inl rfl
  | false => exact .inr (((hv.operators z op hop).other hload).single hm)

/-- The plan in which the filter `u` has the predicate `l` and its outputs were handed over to a new
filter by `r` behind it. -/
structure Divided (p q : Plan) (u : NodeId) (name : Option String) (l r : Formula) : Prop where
  wellFormed : q.graph.WellFormed
  coherent : q.Coherent
  ids : q.graph.ids = p.graph.ids ++ [⟨p.graph.nextKey⟩]
  nextKey : q.graph.nextKey = p.graph.nextKey + 1
  upper : q.IsFilter u name l
  lower : q.IsFilter ⟨p.graph.nextKey⟩ none r
  other : ∀ z, z ≠ u → z ≠ ⟨p.graph.nextKey⟩ → q.core? z = p.core? z
  predecessors : ∀ z, q.graph.predecessors z = if z = ⟨p.graph.nextKey⟩ then [u]
    else (p.graph.predecessors z).map (renamed u ⟨p.graph.nextKey⟩)
  successors : ∀ z, q.graph.successors z = if z = u then [⟨p.graph.nextKey⟩]
    else if z = ⟨p.graph.nextKey⟩ then p.graph.successors u else p.graph.successors z

theorem core?_nextKey (hp : p.Sound) : p.core? ⟨p.graph.nextKey⟩ = none := by
  have hfresh := contains_eq_core? (p := p) (x := ⟨p.graph.nextKey⟩)
  rw [fresh_of_keysBelow hp.wellFormed hp.keysBelow] at hfresh
  simpa using hfresh

theorem IsFilter.ne_nextKey (hu : p.IsFilter u name f) (hp : p.Sound) :
    u ≠ ⟨p.graph.nextKey⟩ := by
  rintro rfl
  rw [IsFilter, core?_nextKey hp] at hu
  cases hu

/-- A filter can be divided in two. -/
theorem divide_spec (hp : p.Sound) (hv : p.Valid) (hu : p.IsFilter u name f) (l r : Formula) :
    ∃ q, (do
        Rule.setPredicate u l
        let lower ← Plan.insert { operation := .filter r }
        let outputs := (← get).successors u
        Rule.moveOutputs u lower 0 outputs
        Plan.connect u lower
        return Region.ofList (u :: lower :: outputs) : Plan.Edit Region) p =
      .ok (.ofList (u :: ⟨p.graph.nextKey⟩ :: p.graph.successors u)) q ∧
        Divided p q u name l r := by
  obtain ⟨op, hop, ho, hname⟩ := hu.operator?
  have hwf := hp.wellFormed
  have hfresh := fresh_of_keysBelow hwf hp.keysBelow
  have huw := hu.ne_nextKey hp
  -- the filter gets its new predicate, and the second one is added
  obtain ⟨q₁, hrun₁, hwf₁, hcoh₁, hids₁, hkey₁, hsuc₁, hpre₁, hother₁, hcore₁⟩ :=
    setPredicate_spec (g := l) hwf hp.coherent hop ho
  obtain ⟨q₂, hrun₂, hwf₂, hcoh₂, hids₂, hkey₂, hsuc₂, hpre₂, hother₂, hcore₂⟩ :=
    insert_filter_spec (f := r) hwf₁ hcoh₁ (hp.keysBelow.congr hids₁ hkey₁)
  rw [hkey₁] at hrun₂ hids₂ hkey₂ hother₂ hcore₂
  have hu₂ : q₂.IsFilter u name l := by
    rw [IsFilter, hother₂ u huw, hcore₁, hname]
  have hw₂ : q₂.HasType ⟨p.graph.nextKey⟩ .filter := hasType_iff_core?.mpr ⟨_, hcore₂, rfl⟩
  have hsucw : q₂.graph.successors ⟨p.graph.nextKey⟩ = [] := by
    rw [hsuc₂, hsuc₁, successors_of_not_contains hfresh]
  have hprew : q₂.graph.predecessors ⟨p.graph.nextKey⟩ = [] := by
    rw [hpre₂, hpre₁, predecessors_of_not_contains hfresh]
  have htakes : ∀ s ∈ q₂.graph.successors u, s ≠ ⟨p.graph.nextKey⟩ ∧
      s ∉ q₂.graph.successors ⟨p.graph.nextKey⟩ ∧ TakesRows q₂ s := by
    intro s hs
    rw [hsuc₂, hsuc₁] at hs
    have hsw : s ≠ ⟨p.graph.nextKey⟩ := by
      rintro rfl
      have := hwf.target hs
      simp [hfresh] at this
    have hsu : s ≠ u := (hwf.ne_of_edge hs).symm
    obtain ⟨t, ht, hload, hmulti⟩ := hv.takesRows hp hu.hasType hs
    refine ⟨hsw, by simp [hsucw], t, ?_, hload, by rwa [hpre₂, hpre₁]⟩
    rwa [hasType_iff_core?, hother₂ s hsw, hother₁ s hsu, ← hasType_iff_core?]
  -- the outputs are handed over
  obtain ⟨q₃, hrun₃, hwf₃, hcoh₃, hsame₃, hpre₃, hsuc₃⟩ :=
    moveOutputs_spec (Ne.symm huw) _ 0 hwf₂ hcoh₂ rfl hw₂ htakes (Nat.zero_le _)
  obtain ⟨q, hrun₄, hwfq, hcohq, hsame₄, hpre₄, hsuc₄⟩ := connect_filter_spec (a := u)
    (b := ⟨p.graph.nextKey⟩) hwf₃ hcoh₃ (hsame₃.hasType.mpr hu₂.hasType) (by simp)
    (hsame₃.hasType.mpr hw₂) huw (by rw [hpre₃, hprew]; rfl)
  have hsame := hsame₃.trans hsame₄
  have houtputs : q₂.graph.successors u = p.graph.successors u := by rw [hsuc₂, hsuc₁]
  refine ⟨q, ?_, hwfq, hcohq, by rw [hsame.ids, hids₂, hids₁], by rw [hsame.nextKey, hkey₂],
    (hsame.core? u).trans hu₂, (hsame.core? _).trans hcore₂, fun z hzu hzw => ?_, fun z => ?_,
    fun z => ?_⟩
  · rw [Pass.bind_of_ok hrun₁, Pass.bind_of_ok hrun₂, Pass.bind_of_ok Pass.get_apply,
      Pass.bind_of_ok (show Rule.moveOutputs u _ 0 (q₂.successors u) q₂ = _ from hrun₃),
      Pass.bind_of_ok hrun₄, ← houtputs]
    rfl
  · rw [hsame.core?, hother₂ z hzw, hother₁ z hzu]
  · rw [hpre₄, hpre₃, hpre₂, hpre₁]
  · rw [hsuc₄, hsuc₃, hsuc₃, if_pos rfl, hsucw]
    simp only [hsuc₂, hsuc₁]
    split_ifs
    · rfl
    · simp
    · rfl

theorem splitFilter_spec (hp : p.Sound) (hv : p.Valid) (hm : m.anchor = .ok u)
    (hu : p.IsFilter u name f) (hf : f.isConjunction = true) :
    ∃ region q l r, Rule.splitFilter.transform m p = .ok region q ∧
      (p.graph.nextKey.toNat + 1 < 2 ^ 64 → q.Sound) ∧ q.Valid ∧ q.validate = .ok () ∧
      Cascade p q u ⟨p.graph.nextKey⟩ f l r ∧ q.IsFilter u name l ∧
      q.IsFilter ⟨p.graph.nextKey⟩ none r ∧ q.graph.ids = p.graph.ids ++ [⟨p.graph.nextKey⟩] ∧
      q.graph.nextKey = p.graph.nextKey + 1 ∧
      (∀ z, q.graph.successors z = if z = u then [⟨p.graph.nextKey⟩]
        else if z = ⟨p.graph.nextKey⟩ then p.graph.successors u else p.graph.successors z) ∧
      f.splitConjunction = .ok (some (l, r)) := by
  obtain ⟨hfs, hfv, -⟩ := hu.predicate hp hv
  obtain ⟨l, r, hsplit, hl, hr, hlcols, hrcols, hconj⟩ := splitConjunction_spec hfs hfv hf
  obtain ⟨q, hrun, hq⟩ := divide_spec hp hv hu l r
  have hcascade : Cascade p q u ⟨p.graph.nextKey⟩ f l r :=
    ⟨⟨name, hu⟩, ⟨name, hq.upper⟩, ⟨none, hq.lower⟩, hconj, core?_nextKey hp, hq.other,
      hq.predecessors⟩
  have hrewired :=
    hcascade.rewired hq.wellFormed hp hv ⟨hl.1, hl.2, hlcols⟩ ⟨hr.1, hr.2, hrcols⟩
  have hformulas := hrewired.formulasSound hp.formulas
  have hvq := hrewired.valid hq.wellFormed hv hp
  have hbelow : p.graph.nextKey.toNat + 1 < 2 ^ 64 → q.graph.KeysBelow := fun hroom =>
    KeysBelow.congr (g := (p.graph.add { operation := .filter r }).2) (hp.keysBelow.add hroom)
      hq.ids hq.nextKey
  refine ⟨.ofList (u :: ⟨p.graph.nextKey⟩ :: p.graph.successors u), q, l, r, ?_,
    fun hroom => ⟨hq.wellFormed, hbelow hroom, hformulas, hq.coherent⟩, hvq,
    (validate_eq_ok hq.wellFormed hformulas).mpr hvq, hcascade, hq.upper, hq.lower, hq.ids,
    hq.nextKey, hq.successors, hsplit⟩
  have hpred : Rule.filterPredicate p u = .ok f := filterPredicate_eq_ok.mpr ⟨name, hu⟩
  unfold Rule.splitFilter
  dsimp only
  rw [Pass.bind_of_ok (ofResult_eq_ok.mpr ⟨hm, rfl⟩), Pass.bind_of_ok Pass.get_apply,
    Pass.bind_of_ok (ofResult_eq_ok.mpr ⟨hpred, rfl⟩),
    Pass.bind_of_ok (ofResult_eq_ok.mpr ⟨hsplit, rfl⟩)]
  exact hrun

/-! ## Merging -/

/-- A filter gets a name if there is one, and keeps its own otherwise. -/
theorem takeName_spec {nu : Option String} (nw : Option String) (hwf : p.graph.WellFormed)
    (hp : p.Coherent) (hu : p.IsFilter u nu f) :
    ∃ q, (if nw.isSome then Plan.update u fun op => { op with name := nw } else pure ()) p =
        .ok () q ∧ q.graph.WellFormed ∧ q.Coherent ∧
      q.graph.ids = p.graph.ids ∧ q.graph.nextKey = p.graph.nextKey ∧
      (∀ z, q.graph.successors z = p.graph.successors z) ∧
      (∀ z, q.graph.predecessors z = p.graph.predecessors z) ∧
      (∀ z, z ≠ u → q.core? z = p.core? z) ∧ q.IsFilter u (nw.or nu) f := by
  cases nw with
  | none => exact ⟨p, rfl, hwf, hp, rfl, rfl, fun _ => rfl, fun _ => rfl, fun _ _ => rfl, hu⟩
  | some n =>
    obtain ⟨op, hop, hcore⟩ := Option.map_eq_some_iff.mp hu
    obtain ⟨q, hrun, hwfq, hcohq, hids, hkey, hsuc, hpre, hother, hid⟩ :=
      update_spec (fun op => { op with name := some n }) hwf hp (contains_of_operator? hop)
        (fun _ => rfl) fun _ => rfl
    refine ⟨q, hrun, hwfq, hcohq, hids, hkey, hsuc, hpre, hother, ?_⟩
    have hchange : (Operator.core { op with name := some n }) =
        { op.core with name := some n } := rfl
    rw [IsFilter, hid, hop, Option.map_some, hchange, hcore]
    rfl

theorem mergeFilter_spec {nu nw : Option String} (hp : p.Sound) (hv : p.Valid)
    (hmu : m.get 0 = .ok u) (hmw : m.get 1 = .ok w) (hu : p.IsFilter u nu f)
    (hw : p.IsFilter w nw g) (hsuc : p.graph.successors u = [w]) (hroom : Conjoinable f g) :
    ∃ region q c, Rule.mergeFilter.transform m p = .ok region q ∧ q.Sound ∧ q.Valid ∧
      Cascade q p u w c f g ∧ q.IsFilter u (nw.or nu) c ∧
      q.graph.ids = p.graph.ids.filter (· != w) ∧ q.graph.nextKey = p.graph.nextKey ∧
      (∀ z, q.graph.successors z = if z = w then [] else if z = u then p.graph.successors w
        else p.graph.successors z) ∧
      Formula.conjunction f g = .ok c ∧ region = .ofList (u :: p.graph.successors w) := by
  have hwf := hp.wellFormed
  obtain ⟨hfs, hfv, -⟩ := hu.predicate hp hv
  obtain ⟨hgs, hgv, -⟩ := hw.predicate hp hv
  have ha := hw.predecessors_eq hp hv (x := u) (by simp [hsuc])
  have hne : u ≠ w := hwf.ne_of_edge (by simp [hsuc])
  have hback : u ∉ p.graph.successors w := fun hmem => by
    obtain ⟨rank, hrank⟩ := hv.acyclic
    have h1 := hrank w u hmem
    have h2 := hrank u w (by simp [hsuc])
    omega
  obtain ⟨c, hconj, hcs, hcv, hccols, hc⟩ := hroom.conjunction hfs hfv hgs hgv
  obtain ⟨opw, hopw, how, hnamew⟩ := hw.operator?
  -- the second filter is taken out
  obtain ⟨removed, q₁, hrun₁, hcore, hwf₁, hcoh₁, hids₁, hkey₁, hcore₁, hpre₁, hsuc₁⟩ :=
    bypass_spec hwf hp.coherent ha hsuc hback hopw
  have hremoved : removed.name = nw := (name_eq_of_core hcore).trans hnamew
  have hu₁ : q₁.IsFilter u nu f := by rw [IsFilter, hcore₁, if_neg hne]; exact hu
  obtain ⟨op₁, hop₁, ho₁, hname₁⟩ := hu₁.operator?
  -- the first one gets the conjunction
  obtain ⟨q₂, hrun₂, hwf₂, hcoh₂, hids₂, hkey₂, hsuc₂, hpre₂, hother₂, hu₂⟩ :=
    setPredicate_spec (g := c) hwf₁ hcoh₁ hop₁ ho₁
  -- and the name of the second, if that has one
  obtain ⟨q, hrun₃, hwfq, hcohq, hids₃, hkey₃, hsuc₃, hpre₃, hother₃, huq⟩ :=
    takeName_spec removed.name hwf₂ hcoh₂ (hname₁ ▸ hu₂ : q₂.IsFilter u nu c)
  rw [hremoved] at huq
  have hpre : ∀ z, z ≠ w →
      q.graph.predecessors z = (p.graph.predecessors z).map (renamed w u) := fun z hz => by
    rw [hpre₃, hpre₂, hpre₁, if_neg hz]
  have hcascade : Cascade q p u w c f g := by
    refine ⟨⟨_, huq⟩, ⟨nu, hu⟩, ⟨nw, hw⟩, hc, ?_, fun z hzu hzw => ?_, fun z => ?_⟩
    · rw [hother₃ w (Ne.symm hne), hother₂ w (Ne.symm hne), hcore₁, if_pos rfl]
    · rw [hother₃ z hzu, hother₂ z hzu, hcore₁, if_neg hzw]
    · by_cases hzw : z = w
      · rw [if_pos hzw, hzw, ha]
      · rw [if_neg hzw, hpre z hzw, map_renamed_back]
        intro hmem
        have := (hwf.edge u z).mpr hmem
        exact hzw (by simpa [hsuc] using this)
  have hrewired := hcascade.rewired_back hwfq hp hv ⟨hcs, hcv, hccols⟩
  have hids : q.graph.ids = p.graph.ids.filter (· != w) := by rw [hids₃, hids₂, hids₁]
  have hkey : q.graph.nextKey = p.graph.nextKey := by rw [hkey₃, hkey₂, hkey₁]
  refine ⟨.ofList (u :: p.graph.successors w), q, c, ?_, ⟨hwfq, fun id hid => ?_,
    hrewired.formulasSound hp.formulas, hcohq⟩, hrewired.valid hwfq hv hp, hcascade, huq, hids,
    hkey, fun z => by rw [hsuc₃, hsuc₂, hsuc₁], hconj, rfl⟩
  · have hpf : Rule.filterPredicate p u = .ok f := filterPredicate_eq_ok.mpr ⟨nu, hu⟩
    have hpg : Rule.filterPredicate p w = .ok g := filterPredicate_eq_ok.mpr ⟨nw, hw⟩
    unfold Rule.mergeFilter
    dsimp only
    rw [Pass.bind_of_ok (ofResult_eq_ok.mpr ⟨hmu, rfl⟩),
      Pass.bind_of_ok (ofResult_eq_ok.mpr ⟨hmw, rfl⟩), Pass.bind_of_ok Pass.get_apply,
      Pass.bind_of_ok (ofResult_eq_ok.mpr ⟨hpf, rfl⟩), Pass.bind_of_ok Pass.get_apply,
      Pass.bind_of_ok (ofResult_eq_ok.mpr ⟨hpg, rfl⟩),
      Pass.bind_of_ok (ofResult_eq_ok.mpr ⟨hconj, rfl⟩), Pass.bind_of_ok Pass.get_apply,
      Pass.bind_of_ok hrun₁, Pass.bind_of_ok hrun₂]
    split at hrun₃
    · rename_i hsome
      rw [if_pos hsome]
      exact Pass.bind_of_ok hrun₃
    · rename_i hsome
      obtain rfl : q₂ = q := by simpa using hrun₃
      rw [if_neg hsome]
      rfl
  · rw [hids] at hid
    rw [hkey]
    exact hp.keysBelow id (List.mem_of_mem_filter hid)

/-! ## Moving up -/

/-- The `ForEach` has a derived schema, and that is not known. -/
def Unknown (p : Plan) (F : NodeId) : Prop := ∃ r, Extends p r ∧ r.memoOf F = some none

/-- The formula of a filter to be moved is another one with its columns where the input of the
`ForEach` has columns of the same identity. -/
def MovedOver (p : Plan) (input F : NodeId) (f f' : Formula) : Prop :=
  ∃ r s o, Extends p r ∧ r.memoOf input = some (some s) ∧ r.memoOf F = some (some o) ∧
    IsMoved f f' fun _ i => Rule.placeAbove s o i

/-- Asking for a schema that has to be known. -/
theorem knownSchema_eq {fault : InvariantFault} {s : Option Schema}
    (hs : Plan.schema id p = .ok s q) : Rule.knownSchema id fault p =
      match s with
      | some s => .ok s q
      | none => .error (.invariant fault) q := by
  unfold Rule.knownSchema
  rw [Pass.bind_of_ok hs]
  cases s <;> rfl

/-- The outputs of the operators once `G` stands between `input` and `F`: what it had goes to its
former input. -/
def LeadsAround (p q : Plan) (input F G : NodeId) : Prop :=
  ∀ a, p.graph.successors a = [G] → ∀ z, q.graph.successors z = if z = G then [F]
    else if z = input then (p.graph.successors input).map (renamed F G)
    else if z = a then p.graph.successors G else p.graph.successors z

/-- The plan in which the filter `G`, the only output of `b` before, has the predicate `f` and
stands between `input` and `F`. -/
structure Lifted (p q : Plan) (input F G b : NodeId) (name : Option String) (f : Formula) :
    Prop where
  wellFormed : q.graph.WellFormed
  coherent : q.Coherent
  ids : q.graph.ids = p.graph.ids
  nextKey : q.graph.nextKey = p.graph.nextKey
  filter : q.IsFilter G name f
  other : ∀ z, z ≠ G → q.core? z = p.core? z
  predecessors : ∀ z, q.graph.predecessors z = if z = G then [input] else if z = F then [G]
    else (p.graph.predecessors z).map (renamed G b)
  successors : ∀ z, q.graph.successors z = if z = G then [F]
    else if z = input then (p.graph.successors input).map (renamed F G)
    else if z = b then p.graph.successors G else p.graph.successors z

/-- Schemas that were derived before make no difference. -/
theorem Lifted.of_alike (h : Lifted r q input F G b name f) (hr : Alike p r) :
    Lifted p q input F G b name f where
  wellFormed := h.wellFormed
  coherent := h.coherent
  ids := h.ids.trans hr.ids
  nextKey := h.nextKey.trans hr.nextKey
  filter := h.filter
  other z hz := (h.other z hz).trans hr.core?
  predecessors z := by rw [h.predecessors, hr.predecessors]
  successors z := by simp only [h.successors, hr.successors]

/-- A filter can be put in front of an operator further up. -/
theorem lift_spec (hwf : p.graph.WellFormed) (hp : p.Coherent) (hG : p.IsFilter G name f)
    (hpreG : p.graph.predecessors G = [b]) (hsucb : p.graph.successors b = [G])
    (hpreF : p.graph.predecessors F = [input]) (hback : b ∉ p.graph.successors G) (hGF : G ≠ F)
    (hGin : G ≠ input) (hbin : input ≠ b) (f' : Formula) :
    ∃ q, (do
        Plan.spliceOut G
        Rule.setPredicate G f'
        Plan.insertBetween input G F) p = .ok () q ∧ Lifted p q input F G b name f' := by
  -- the filter is taken out, gets its new predicate and is put in front of the other operator
  obtain ⟨q₁, hrun₁, hwf₁, hcoh₁, hsame₁, hpre₁, hsuc₁⟩ := spliceOut_spec hwf hp hpreG hsucb hback
  have hG₁ : q₁.IsFilter G name f := (hsame₁.core? G).trans hG
  obtain ⟨op₁, hop₁, ho₁, hname₁⟩ := hG₁.operator?
  obtain ⟨q₂, hrun₂, hwf₂, hcoh₂, hids₂, hkey₂, hsuc₂, hpre₂, hother₂, hG₂⟩ :=
    setPredicate_spec (g := f') hwf₁ hcoh₁ hop₁ ho₁
  rw [hname₁] at hG₂
  have hpreF₂ : q₂.graph.predecessors F = [input] := by
    rw [hpre₂, hpre₁, if_neg (Ne.symm hGF), hpreF, List.map_singleton,
      renamed_of_ne (Ne.symm hGin)]
  obtain ⟨q, hrun₃, hwfq, hcohq, hsame₃, hpre₃, hsuc₃⟩ := insertBetween_spec (a := input) (x := G)
    (b := F) hwf₂ hcoh₂ ((hwf₂.edge input F).mpr (by simp [hpreF₂]))
    (by rw [contains_eq_core?, hG₂]; rfl) (by rw [hpre₂, hpre₁, if_pos rfl])
    (by rw [hsuc₂, hsuc₁, if_pos rfl]) hGin hGF
  refine ⟨q, ?_, hwfq, hcohq, by rw [hsame₃.ids, hids₂, hsame₁.ids],
    by rw [hsame₃.nextKey, hkey₂, hsame₁.nextKey], (hsame₃.core? G).trans hG₂, fun z hz => ?_,
    fun z => ?_, fun z => ?_⟩
  · rw [Pass.bind_of_ok hrun₁, Pass.bind_of_ok hrun₂]
    exact hrun₃
  · rw [hsame₃.core?, hother₂ z hz, hsame₁.core?]
  · rw [hpre₃, hpreF₂, List.map_singleton, renamed_self, hpre₂, hpre₁]
    split_ifs <;> rfl
  · rw [hsuc₃, hsuc₂, hsuc₂, hsuc₁, hsuc₁, if_neg (Ne.symm hGin), if_neg hbin]
    split_ifs <;> rfl

/-- What moving an eligible filter does once the schemas are known. -/
theorem moveUp_spec {path : List NodeId} {s o : Schema} (hp : p.Sound) (hv : p.Valid)
    (hF : p.HasType F .forEach) (hr : Extends p r) (h : Eligible p r input F G path name f s)
    (ho : r.memoOf F = some (some o)) :
    ∃ f' q, Formula.remapColumns (fun _ i => Rule.placeAbove s o i) f = .ok () f' ∧
      (do
        Plan.spliceOut G
        Rule.setPredicate G f'
        Plan.insertBetween input G F) r = .ok () q ∧ q.Sound ∧ q.Valid ∧
      Pushes p q input F G path f f' ∧ MovedOver p input F f f' ∧ q.IsFilter G name f' ∧
      q.graph.ids = p.graph.ids ∧ q.graph.nextKey = p.graph.nextKey ∧
        LeadsAround p q input F G := by
  obtain ⟨hfs, hfv, hcols, -⟩ := h.filter.predicate hp hv
  obtain ⟨b, hb, hsucb⟩ := h.leads.exists_last
  have ha := h.filter.predecessors_eq hp hv (x := b) (by simp [hsucb])
  have honly : ∀ c, p.graph.successors c = [G] → c = b := fun c hc => by
    have hcG : c ∈ p.graph.predecessors G := (hp.wellFormed.edge c G).mp (by simp [hc])
    simpa [ha] using hcG
  -- the input, the `ForEach`, what is in front of the filter and the filter stand in this order
  obtain ⟨rank, hrank⟩ := hv.acyclic
  have hFG := h.leads.rank_lt_end hrank
  have hrankb := h.leads.rank_of_mem hrank hb
  have hin : rank input < rank F :=
    hrank _ _ ((hp.wellFormed.edge _ _).mpr (by simp [h.source]))
  have hback : b ∉ p.graph.successors G := fun hmem => by
    have := hrank _ _ hmem
    omega
  have hGF : G ≠ F := by rintro rfl; omega
  have hGin : G ≠ input := by rintro rfl; omega
  have hbin : input ≠ b := by rintro rfl; omega
  obtain ⟨f', hremap, hmoved⟩ := remapColumns_spec (fun _ i => Rule.placeAbove s o i) hfs
    (h.exists_place hp hv hr ho)
  have halike := hr.alike
  obtain ⟨q, hrun, hq⟩ := lift_spec (hp.extends hr).wellFormed hr.coherent
    (halike.isFilter.mpr h.filter) ((halike.predecessors G).trans ha)
    ((halike.successors b).trans hsucb) ((halike.predecessors F).trans h.source)
    (by rwa [halike.successors]) hGF hGin hbin f'
  replace hq := hq.of_alike halike
  have hpushes : Pushes p q input F G path f f' :=
    ⟨hF, h.source, h.leads, ⟨name, h.filter⟩, ⟨name, hq.filter⟩, hq.other, fun c hc => by
      rw [honly c hc]
      exact hq.predecessors⟩
  have hf'cols : ∀ col ∈ f'.columns, col.1 < 1 := fun col hcol => by
    obtain ⟨i, hi, -⟩ := hmoved.mem_columns hfs hcol
    exact hcols (col.1, i) hi
  have hrewired := hpushes.rewired hq.wellFormed hp hv ⟨hmoved.sound, hmoved.valid hfv, hf'cols⟩
  exact ⟨f', q, hremap, hrun, ⟨hq.wellFormed, hp.keysBelow.congr hq.ids hq.nextKey,
    hrewired.formulasSound hp.formulas, hq.coherent⟩, hrewired.valid hq.wellFormed hv hp, hpushes,
    ⟨r, s, o, hr, h.known, ho, hmoved⟩, hq.filter, hq.ids, hq.nextKey, fun c hc => by
      rw [honly c hc]
      exact hq.successors⟩

/-- Moving an eligible filter up works, unless a schema cannot be derived or that of the `ForEach`
turns out to be unknown. -/
theorem filterAboveForEach_spec (hp : p.Sound) (hv : p.Valid) (hF : p.HasType F .forEach)
    (hm : m.get 0 = .ok F) (hfound : Rule.eligibleFilter F p = .ok (some (input, G)) p) :
    (∃ region q path name f f', Rule.filterAboveForEach.transform m p = .ok region q ∧ q.Sound ∧
      q.Valid ∧ Pushes p q input F G path f f' ∧ MovedOver p input F f f' ∧
      p.IsFilter G name f ∧ q.IsFilter G name f' ∧ q.graph.ids = p.graph.ids ∧
      q.graph.nextKey = p.graph.nextKey ∧ LeadsAround p q input F G ∧
      (∃ r s o, Plan.schema F p = .ok (some o) r ∧ p.memoOf input = some (some s) ∧
        Formula.remapColumns (fun _ i => Rule.placeAbove s o i) f = .ok () f' ∧
        SameIdentities r q) ∧
      region = .ofList (input :: G :: F ::
        ((p.graph.predecessors G).take 1 ++ p.graph.successors G))) ∨
    ∃ e q, Rule.filterAboveForEach.transform m p = .error e q ∧
      (Stuck p e ∨ (e = .invariant .outputSchemaUnknown ∧ Unknown p F)) := by
  have hready := hp.ready hv
  have hself : Extends p p := .refl hp.coherent
  obtain ⟨-, path, name, f, s, h⟩ := eligibleFilter_eq_ok hready hself hfound
  have hinput := schema_of_memo h.known
  have hcF := hF.contains
  unfold Rule.filterAboveForEach
  dsimp only
  rw [Pass.bind_of_ok (ofResult_eq_ok.mpr ⟨hm, rfl⟩), Pass.bind_of_ok hfound]
  dsimp only
  rw [Pass.bind_of_ok (knownSchema_eq hinput)]
  cases hs : Plan.schema F p with
  | error e r =>
    refine .inr ⟨e, r, ?_, .inl ((Asks.schema hready hcF p hself).2 e r hs)⟩
    refine Pass.bind_eq_error.mpr (.inl ?_)
    unfold Rule.knownSchema
    exact Pass.bind_eq_error.mpr (.inl hs)
  | ok o r =>
    obtain ⟨hr, hmemo⟩ := schema_eq_ok hp.coherent hs
    cases o with
    | none =>
      refine .inr ⟨.invariant .outputSchemaUnknown, r, ?_, .inr ⟨rfl, r, hr, hmemo⟩⟩
      exact Pass.bind_eq_error.mpr (.inl (knownSchema_eq hs))
    | some o =>
      have hE : Eligible p r input F G path name f s :=
        ⟨h.source, h.leads, h.filter, hr.memo _ _ h.known, fun c hc => by
          obtain ⟨uid, huid, hcol⟩ := h.columns c hc
          exact ⟨uid, huid, hcol.extends hr⟩⟩
      obtain ⟨f', q, hremap, hrun, hqs, hqv, hpushes, hover, hGq, hids, hkey, haround⟩ :=
        moveUp_spec hp hv hF hr hE hmemo
      refine .inl ⟨.ofList (input :: G :: F :: ((r.graph.predecessors G).take 1 ++
        r.graph.successors G)), q, path, name, f, f', ?_, hqs, hqv, hpushes, hover, h.filter, hGq,
        hids, hkey, haround, ⟨r, s, o, rfl, h.known, hremap,
          (Refiltered.keeps_move.of_ok .refl hrun).sameIdentities⟩, by
          rw [hr.alike.predecessors, hr.alike.successors]⟩
      rw [Pass.bind_of_ok (knownSchema_eq hs), Pass.bind_of_ok Pass.get_apply,
        Pass.bind_of_ok (ofResult_eq_ok.mpr ⟨hr.filterPredicate h.filter, rfl⟩), hremap]
      dsimp only
      rw [Pass.bind_of_ok Pass.get_apply, Pass.bind_of_ok Pass.get_apply]
      obtain ⟨_, q₁, h₁, hrun⟩ := Pass.bind_eq_ok.mp hrun
      obtain ⟨_, q₂, h₂, hrun⟩ := Pass.bind_eq_ok.mp hrun
      rw [Pass.bind_of_ok h₁, Pass.bind_of_ok h₂, Pass.bind_of_ok hrun]
      rfl

end Plan

/-!
## Matches of short patterns

The patterns of the rules for filters are chains of one or two operators. A match of such a chain
consists of an operator of the first type and, if there is a second type, its first output, which
has that type.
-/

namespace Pattern

open Dataflow.Graph Plan

variable {pattern : Pattern} {plan : Plan} {m : Match} {b c : NodeId} {t t₁ t₂ : OperatorType}

/-- A pattern of one operator. -/
structure IsSingle (pattern : Pattern) (t : OperatorType) : Prop where
  root : pattern.root = .ok ⟨0⟩
  ids : pattern.graph.ids = [⟨0⟩]
  first : pattern.graph.vertices[(⟨0⟩ : NodeId)]? = some ⟨t, [], []⟩

/-- A pattern of two operators, of which the first leads to the second. -/
structure IsPair (pattern : Pattern) (t₁ t₂ : OperatorType) : Prop where
  root : pattern.root = .ok ⟨0⟩
  ids : pattern.graph.ids = [⟨0⟩, ⟨1⟩]
  first : pattern.graph.vertices[(⟨0⟩ : NodeId)]? = some ⟨t₁, [⟨1⟩], []⟩
  second : pattern.graph.vertices[(⟨1⟩ : NodeId)]? = some ⟨t₂, [], [⟨0⟩]⟩

theorem fits_of_bind {v : Vertex OperatorType} {a : NodeId} {rest : List (NodeId × NodeId)}
    {pairs found : Pairing} (hf : Pairing.forward? pairs a = none)
    (hv : pattern.graph.vertices[a]? = some v)
    (h : bind pattern plan ((a, b) :: rest) pairs = some found) :
    ∃ op, plan.operator? b = some op ∧
      (v.content = op.type ∧ v.outs.length ≤ (plan.successors b).length) ∧
      bind pattern plan (v.outs.zip (plan.successors b) ++ rest) ((a, b) :: pairs) =
        some found := by
  have h' := h
  rw [bind] at h'
  split at h'
  · simp_all
  · simp at h'
  · rename_i hb _ _
    split at h'
    · rename_i w op hw hop
      obtain rfl : v = w := by simpa [hv] using hw
      split at h'
      · exact ⟨op, hop, ‹_›, h'⟩
      · simp at h'
    · simp at h'

theorem bind_nil {pairs : Pairing} : bind pattern plan [] pairs = some pairs := by
  rw [bind]

/-- A match of a single operator. -/
theorem IsSingle.matchAt (h : pattern.IsSingle t)
    (hm : pattern.matchAt plan b = .ok (some m)) : m.nodes = [b] ∧ plan.HasType b t := by
  unfold Pattern.matchAt at hm
  rw [h.root, Pass.except_ok_bind] at hm
  simp only [Pass.except_pure, Except.ok.injEq, Option.bind_eq_bind,
    Option.bind_eq_some_iff, Option.pure_def, Option.some.injEq] at hm
  obtain ⟨pairs, hbind, nodes, hnodes, rfl⟩ := hm
  obtain ⟨op, hop, ⟨htype, -⟩, hbind⟩ := fits_of_bind rfl h.first hbind
  simp only [List.zip_nil_left, List.append_nil, bind_nil, Option.some.injEq] at hbind
  subst hbind
  rw [h.ids] at hnodes
  obtain rfl : [b] = nodes := by simpa [Pairing.forward?] using hnodes
  exact ⟨rfl, op, hop, htype.symm⟩

/-- A match of two operators. -/
theorem IsPair.matchAt (h : pattern.IsPair t₁ t₂)
    (hm : pattern.matchAt plan b = .ok (some m)) : ∃ c rest, m.nodes = [b, c] ∧
      plan.successors b = c :: rest ∧ plan.HasType b t₁ ∧ plan.HasType c t₂ := by
  unfold Pattern.matchAt at hm
  rw [h.root, Pass.except_ok_bind] at hm
  simp only [Pass.except_pure, Except.ok.injEq, Option.bind_eq_bind,
    Option.bind_eq_some_iff, Option.pure_def, Option.some.injEq] at hm
  obtain ⟨pairs, hbind, nodes, hnodes, rfl⟩ := hm
  obtain ⟨op, hop, ⟨htype, hlen⟩, hbind⟩ := fits_of_bind rfl h.first hbind
  cases hsuc : plan.successors b with
  | nil => simp [hsuc] at hlen
  | cons c rest =>
    rw [hsuc] at hbind
    change bind pattern plan [(⟨1⟩, c)] [(⟨0⟩, b)] = _ at hbind
    obtain ⟨opc, hopc, ⟨htypec, -⟩, hbind⟩ := fits_of_bind rfl h.second hbind
    simp only [List.zip_nil_left, List.append_nil, bind_nil, Option.some.injEq] at hbind
    subst hbind
    rw [h.ids] at hnodes
    obtain rfl : [b, c] = nodes := by simpa [Pairing.forward?] using hnodes
    exact ⟨c, rest, rfl, rfl, ⟨op, hop, htype.symm⟩, opc, hopc, htypec.symm⟩

theorem chain_single : ∀ t : OperatorType,
    ∃ pattern, chain [t] = .ok pattern ∧ pattern.graph.ids = [⟨0⟩] ∧
      pattern.graph.vertices[(⟨0⟩ : NodeId)]? = some ⟨t, [], []⟩ :=
  fun _ => ⟨_, rfl, rfl, rfl⟩

theorem chain_pair : ∀ t₁ t₂ : OperatorType,
    ∃ pattern, chain [t₁, t₂] = .ok pattern ∧ pattern.graph.ids = [⟨0⟩, ⟨1⟩] ∧
      pattern.graph.vertices[(⟨0⟩ : NodeId)]? = some ⟨t₁, [⟨1⟩], []⟩ ∧
      pattern.graph.vertices[(⟨1⟩ : NodeId)]? = some ⟨t₂, [], [⟨0⟩]⟩ :=
  fun _ _ => ⟨_, rfl, rfl, rfl, rfl⟩

/-- The patterns of the rules start at their first operator. -/
theorem root_chain (t : OperatorType) :
    (chain [t] >>= root) = .ok ⟨0⟩ ∧ (chain [t, .filter] >>= root) = .ok ⟨0⟩ := by
  cases t <;> decide +kernel

theorem exists_single (t : OperatorType) :
    ∃ pattern, chain [t] = .ok pattern ∧ pattern.IsSingle t := by
  obtain ⟨pattern, hp, hids, h₁⟩ := chain_single t
  have hroot := (root_chain t).1
  rw [hp] at hroot
  exact ⟨pattern, hp, hroot, hids, h₁⟩

theorem exists_pair (t : OperatorType) :
    ∃ pattern, chain [t, .filter] = .ok pattern ∧ pattern.IsPair t .filter := by
  obtain ⟨pattern, hp, hids, h₁, h₂⟩ := chain_pair t .filter
  have hroot := (root_chain t).2
  rw [hp] at hroot
  exact ⟨pattern, hp, hroot, hids, h₁, h₂⟩

/-! ### All matches -/

/-- Looking for matches succeeds on a plan without cycles, and finds nothing but matches. -/
theorem exists_matches {r : NodeId} (hroot : pattern.root = .ok r) (hp : plan.graph.WellFormed)
    (hac : plan.graph.Acyclic) {scope : Option (List NodeId)} :
    ∃ found, pattern.findMatches plan scope = .ok found ∧
      ∀ m ∈ found, ∃ b, pattern.matchAt plan b = .ok (some m) := by
  have hat : ∀ b, ∃ m?, pattern.matchAt plan b = .ok m? := fun b => by
    unfold Pattern.matchAt
    rw [hroot, Pass.except_ok_bind]
    exact ⟨_, rfl⟩
  have hall : ∀ ids, ∃ found, pattern.matchesAt plan ids = .ok found ∧
      ∀ m ∈ found, ∃ b, pattern.matchAt plan b = .ok (some m) := by
    intro ids
    induction ids with
    | nil => exact ⟨[], rfl, by simp⟩
    | cons b ids ih =>
      obtain ⟨found, hfound, hm⟩ := ih
      obtain ⟨m?, hm?⟩ := hat b
      unfold matchesAt
      rw [hm?, Pass.except_ok_bind]
      cases m? with
      | none => exact ⟨found, hfound, hm⟩
      | some m =>
        refine ⟨m :: found, by rw [hfound]; rfl, fun m' hm' => ?_⟩
        rcases List.mem_cons.mp hm' with rfl | hm'
        · exact ⟨b, hm?⟩
        · exact hm m' hm'
  obtain ⟨order, horder⟩ := exists_topologicalOrder hp hac
  unfold findMatches
  rw [hroot, horder]
  exact hall _

end Pattern

end Dataflow

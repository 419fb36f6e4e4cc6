import Dataflow.Proofs.Rewrite.Filters

/-!
# Cascades and moved filters

How plans before and after a rule are related, up to derived schemas. A plan has a `Cascade` of two
filters where another one has a single filter by the conjunction: splitting leads from the second to
the first, merging leads back. `Pushes` relates a plan with a filter behind a `ForEach`, possibly
with other filters between the two, to the one in which the filter stands in front.
-/

namespace Dataflow.Plan

open Dataflow.Graph Formula

variable {p q : Plan} {a b x y z id u w F G input : NodeId} {op : Operator} {f f' l r : Formula}

/-! ## Cascades -/

/-- Where `p` has the filter `u` by a conjunction, `q` has `u` by its first part, which leads to the
filter `w` by its second part; `w` has the outputs that `u` has in `p`. -/
structure Cascade (p q : Plan) (u w : NodeId) (f l r : Formula) : Prop where
  whole : ∃ name, p.IsFilter u name f
  first : ∃ name, q.IsFilter u name l
  second : ∃ name, q.IsFilter w name r
  conjunction : IsConjunction f l r
  absent : p.core? w = none
  other : ∀ z, z ≠ u → z ≠ w → q.core? z = p.core? z
  predecessors : ∀ z, q.graph.predecessors z =
    if z = w then [u] else (p.graph.predecessors z).map (renamed u w)

namespace Cascade

variable (h : Cascade p q u w f l r)

include h

/-- The second filter is not in the plan with the single one. -/
theorem ne_of_core? (hz : p.core? z = some op) : z ≠ w := by
  rintro rfl
  rw [h.absent] at hz
  cases hz

theorem ne : u ≠ w := by
  obtain ⟨name, hu⟩ := h.whole
  exact h.ne_of_core? hu

theorem ne_of_contains (hz : p.graph.contains z = true) : z ≠ w := by
  rw [contains_eq_core?] at hz
  obtain ⟨op, hop⟩ := Option.isSome_iff_exists.mp hz
  exact h.ne_of_core? hop

theorem hasType_of_ne_filter {t : OperatorType} (ht : t ≠ .filter) :
    q.HasType z t ↔ p.HasType z t := by
  obtain ⟨name, hu⟩ := h.whole
  obtain ⟨name', hu'⟩ := h.first
  obtain ⟨name'', hw'⟩ := h.second
  by_cases hzu : z = u
  · subst hzu
    exact ⟨fun hz => absurd (hz.unique hu'.hasType) ht, fun hz => absurd (hz.unique hu.hasType) ht⟩
  by_cases hzw : z = w
  · subst hzw
    exact ⟨fun hz => absurd (hz.unique hw'.hasType) ht, fun hz =>
      absurd rfl (h.ne_of_contains hz.contains)⟩
  · rw [hasType_iff_core?, hasType_iff_core?, h.other z hzu hzw]

theorem ne_of_not_filter {t : OperatorType} (ht : t ≠ .filter) (hz : p.HasType z t) :
    z ≠ u ∧ z ≠ w := by
  obtain ⟨name, hu⟩ := h.whole
  refine ⟨?_, h.ne_of_contains hz.contains⟩
  rintro rfl
  exact ht (hz.unique hu.hasType)

theorem core?_of_hasType {t : OperatorType} (ht : t ≠ .filter) (hz : p.HasType z t) :
    q.core? z = p.core? z := by
  obtain ⟨hzu, hzw⟩ := h.ne_of_not_filter ht hz
  exact h.other z hzu hzw

theorem predecessors_of_ne (hz : z ≠ w) :
    q.graph.predecessors z = (p.graph.predecessors z).map (renamed u w) := by
  rw [h.predecessors, if_neg hz]

theorem dataInputs_of_ne (hzw : z ≠ w) :
    q.dataInputs z = (p.dataInputs z).map (renamed u w) := by
  obtain ⟨name, hu⟩ := h.whole
  obtain ⟨name', hu'⟩ := h.first
  by_cases hzu : z = u
  · rw [hzu, hu.dataInputs, hu'.dataInputs, h.predecessors_of_ne h.ne]
  have hcore := h.other z hzu hzw
  cases hop : p.core? z with
  | none => rw [dataInputs_of_none hop, dataInputs_of_none (hcore.trans hop)]; rfl
  | some op =>
    rw [dataInputs_of_core? hop, dataInputs_of_core? (hcore.trans hop), h.predecessors_of_ne hzw]
    split <;> rfl

theorem predecessors_absent (hp : p.graph.WellFormed) : w ∉ p.graph.predecessors z :=
  fun hw => h.ne_of_contains (hp.source hw) rfl

/-- Going back, the filter by the conjunction has the outputs of the second filter. -/
theorem predecessors_back (hp : p.graph.WellFormed) (hz : z ≠ w) :
    p.graph.predecessors z = (q.graph.predecessors z).map (renamed w u) := by
  rw [h.predecessors_of_ne hz, map_renamed_back (h.predecessors_absent hp)]

theorem acyclic (hq : q.graph.WellFormed) (hp : p.graph.WellFormed) (hac : p.graph.Acyclic) :
    q.graph.Acyclic := by
  obtain ⟨rank, hrank⟩ := hac
  have hne := h.ne
  refine ⟨fun z => if z = w then 2 * rank u + 1 else 2 * rank z, fun x y hy => ?_⟩
  have hx := (hq.edge x y).mp hy
  rw [h.predecessors] at hx
  by_cases hyw : y = w
  · rw [if_pos hyw, List.mem_singleton] at hx
    simp [hyw, hx, hne]
  · rw [if_neg hyw] at hx
    obtain ⟨x', hx', rfl⟩ := List.mem_map.mp hx
    have hlt := hrank x' y ((hp.edge x' y).mpr hx')
    have hxw : x' ≠ w := by rintro rfl; exact h.predecessors_absent hp hx'
    by_cases hxu : x' = u
    · subst hxu
      simp only [renamed_self, if_true, if_neg hyw]
      omega
    · simp only [renamed_of_ne hxu, if_neg hxw, if_neg hyw]
      omega

theorem acyclic_back (hq : q.graph.WellFormed) (hp : p.graph.WellFormed) (hac : q.graph.Acyclic) :
    p.graph.Acyclic := by
  obtain ⟨rank, hrank⟩ := hac
  have hne := h.ne
  have huw : rank u < rank w := hrank u w ((hq.edge u w).mpr (by rw [h.predecessors]; simp))
  refine ⟨rank, fun x y hy => ?_⟩
  have hx := (hp.edge x y).mp hy
  have hyw := h.ne_of_contains (hp.target hy)
  have hmem : renamed u w x ∈ q.graph.predecessors y := by
    rw [h.predecessors_of_ne hyw]
    exact List.mem_map_of_mem hx
  have hlt := hrank _ _ ((hq.edge _ _).mpr hmem)
  by_cases hxu : x = u
  · subst hxu
    rw [renamed_self] at hlt
    omega
  · rwa [renamed_of_ne hxu] at hlt

/-- Both parts read columns of the conjunction only, so that splitting keeps a plan valid. -/
theorem rewired (hq : q.graph.WellFormed) (hp : p.Sound) (hv : p.Valid)
    (hl : l.Sound ∧ l.Valid ∧ ∀ col ∈ l.columns, col ∈ f.columns)
    (hr : r.Sound ∧ r.Valid ∧ ∀ col ∈ r.columns, col ∈ f.columns) : Rewired p q := by
  obtain ⟨name, hu⟩ := h.whole
  obtain ⟨name', hu'⟩ := h.first
  obtain ⟨name'', hw'⟩ := h.second
  obtain ⟨-, -, hcols, a, ha, hastore⟩ := hu.predicate hp hv
  have hau : a ≠ u := hp.wellFormed.ne_of_edge ((hp.wellFormed.edge a u).mpr (by simp [ha]))
  refine ⟨h.acyclic hq hp.wellFormed hv.acyclic, fun z t ht => ⟨h.core?_of_hasType ht, fun hz =>
    h.core?_of_hasType ht ((h.hasType_of_ne_filter ht).mp hz)⟩, fun z t ht hz =>
    ⟨renamed u w, ?_, fun x hx => ?_⟩, fun z nz g hz => ?_⟩
  · refine h.predecessors_of_ne ?_
    rintro rfl
    exact ht (hz.unique hw'.hasType)
  · by_cases hxu : x = u
    · subst hxu
      rw [renamed_self]
      exact .inr ⟨hu.hasType.not (by simp), hw'.hasType.not (by simp)⟩
    · exact .inl (renamed_of_ne hxu)
  · by_cases hzu : z = u
    · subst hzu
      obtain ⟨rfl, -⟩ := hz.unique hu'
      refine ⟨hl.1, hl.2.1, fun col hcol => hcols col (hl.2.2 col hcol), a, ?_, fun hs => ?_⟩
      · rw [h.predecessors_of_ne h.ne, ha, List.map_singleton, renamed_of_ne hau]
      · exact hastore _ ((h.hasType_of_ne_filter (by simp)).mp hs) rfl
    by_cases hzw : z = w
    · subst hzw
      obtain ⟨rfl, -⟩ := hz.unique hw'
      refine ⟨hr.1, hr.2.1, fun col hcol => hcols col (hr.2.2 col hcol), u, ?_,
        hu'.hasType.not (by simp)⟩
      rw [h.predecessors, if_pos rfl]
    · have hz' : p.IsFilter z nz g := (h.other z hzu hzw).symm.trans hz
      obtain ⟨hs, hval, hcolz, b, hb, hbstore⟩ := hz'.predicate hp hv
      refine ⟨hs, hval, hcolz, renamed u w b, ?_, fun hst => ?_⟩
      · rw [h.predecessors_of_ne hzw, hb, List.map_singleton]
      · by_cases hbu : b = u
        · rw [hbu, renamed_self] at hst
          exact hw'.hasType.not (by simp) hst
        · rw [renamed_of_ne hbu] at hst
          exact hbstore _ ((h.hasType_of_ne_filter (by simp)).mp hst) rfl

/-- The conjunction reads what its parts read, so that merging keeps a plan valid. -/
theorem rewired_back (hp : p.graph.WellFormed) (hq : q.Sound) (hv : q.Valid)
    (hf : f.Sound ∧ f.Valid ∧ ∀ col ∈ f.columns, col ∈ l.columns ∨ col ∈ r.columns) :
    Rewired q p := by
  obtain ⟨name, hu⟩ := h.whole
  obtain ⟨name', hu'⟩ := h.first
  obtain ⟨name'', hw'⟩ := h.second
  have hcolsr := (hw'.predicate hq hv).2.2.1
  refine ⟨h.acyclic_back hq.wellFormed hp hv.acyclic, fun z t ht => ⟨fun hz =>
    (h.core?_of_hasType ht ((h.hasType_of_ne_filter ht).mp hz)).symm, fun hz =>
    (h.core?_of_hasType ht hz).symm⟩, fun z t ht hz =>
    ⟨renamed w u, h.predecessors_back hp (h.ne_of_contains hz.contains), fun x hx => ?_⟩,
    fun z nz g hz => ?_⟩
  · by_cases hxw : x = w
    · subst hxw
      rw [renamed_self]
      exact .inr ⟨hw'.hasType.not (by simp), hu.hasType.not (by simp)⟩
    · exact .inl (renamed_of_ne hxw)
  have hzw := h.ne_of_core? hz
  have hinput : ∀ n k, q.IsFilter z n k → ∃ a, p.graph.predecessors z = [a] ∧
      ¬p.HasType a .store := fun n k hk => by
    obtain ⟨-, -, -, a, ha, hastore⟩ := hk.predicate hq hv
    refine ⟨renamed w u a, by rw [h.predecessors_back hp hzw, ha, List.map_singleton], ?_⟩
    by_cases haw : a = w
    · rw [haw, renamed_self]
      exact hu.hasType.not (by simp)
    · rw [renamed_of_ne haw]
      exact fun hs => hastore _ ((h.hasType_of_ne_filter (by simp)).mpr hs) rfl
  by_cases hzu : z = u
  · subst hzu
    obtain ⟨rfl, -⟩ := hz.unique hu
    refine ⟨hf.1, hf.2.1, fun col hcol => ?_, hinput _ _ hu'⟩
    rcases hf.2.2 col hcol with hc | hc
    · exact (hu'.predicate hq hv).2.2.1 col hc
    · exact hcolsr col hc
  · have hz' : q.IsFilter z nz g := (h.other z hzu hzw).trans hz
    obtain ⟨hs, hval, hcolz, -⟩ := hz'.predicate hq hv
    exact ⟨hs, hval, hcolz, hinput _ _ hz'⟩

end Cascade

/-! ## Moved filters -/

/-- From `x` on, each of the listed operators has a single output, which is the next of them; that
of the last one is `G`. All of them but `x` are filters. -/
inductive LeadsTo (p : Plan) (G : NodeId) : NodeId → List NodeId → Prop
  | last {x : NodeId} : p.graph.successors x = [G] → LeadsTo p G x [x]
  | step {x y : NodeId} {path : List NodeId} : p.graph.successors x = [y] →
      p.HasType y .filter → LeadsTo p G y path → LeadsTo p G x (x :: path)

namespace LeadsTo

variable {path : List NodeId}

/-- Paths are a matter of outputs and of which operators are filters. -/
theorem congr (h : LeadsTo p G x path) (hsuc : ∀ z, q.graph.successors z = p.graph.successors z)
    (htype : ∀ z, p.HasType z .filter → q.HasType z .filter) : LeadsTo q G x path := by
  induction h with
  | last hx => exact .last ((hsuc _).trans hx)
  | step hx hy _ ih => exact .step ((hsuc _).trans hx) (htype _ hy) ih

theorem mem_self (h : LeadsTo p G x path) : x ∈ path := by
  cases h <;> simp

theorem exists_last (h : LeadsTo p G x path) : ∃ a ∈ path, p.graph.successors a = [G] := by
  induction h with
  | last hx => exact ⟨_, by simp, hx⟩
  | step _ _ _ ih =>
    obtain ⟨a, ha, hsuc⟩ := ih
    exact ⟨a, by simp [ha], hsuc⟩

theorem filter_of_mem (h : LeadsTo p G x path) (hz : z ∈ path) (hzx : z ≠ x) :
    p.HasType z .filter := by
  induction h with
  | last => simp [hzx] at hz
  | @step x y path hsuc hy _ ih =>
    have hz : z ∈ path := by simpa [hzx] using hz
    by_cases hzy : z = y
    · exact hzy ▸ hy
    · exact ih hz hzy

/-- The output of an operator on the path is on the path, too, or it is the end. -/
theorem output_of_mem (h : LeadsTo p G x path) (hz : z ∈ path) :
    ∃ y, p.graph.successors z = [y] ∧ (y = G ∨ y ∈ path) := by
  induction h with
  | last hx =>
    obtain rfl : z = _ := by simpa using hz
    exact ⟨G, hx, .inl rfl⟩
  | @step x y path hsuc _ hrest ih =>
    rcases List.mem_cons.mp hz with rfl | hz
    · exact ⟨y, hsuc, .inr (by simp [hrest.mem_self])⟩
    · obtain ⟨v, hv, hvG⟩ := ih hz
      exact ⟨v, hv, hvG.imp_right fun hm => by simp [hm]⟩

/-- The input of an operator on the path, other than the first, is on the path. -/
theorem input_of_mem (h : LeadsTo p G x path) (hz : z ∈ path) (hzx : z ≠ x) :
    ∃ y ∈ path, p.graph.successors y = [z] := by
  induction h with
  | last => simp [hzx] at hz
  | @step x y path hsuc _ _ ih =>
    have hz : z ∈ path := by simpa [hzx] using hz
    by_cases hzy : z = y
    · exact ⟨x, by simp, hzy ▸ hsuc⟩
    · obtain ⟨v, hv, hvz⟩ := ih hz hzy
      exact ⟨v, by simp [hv], hvz⟩

theorem rank_lt_end (h : LeadsTo p G x path) {rank : NodeId → Nat}
    (hrank : ∀ a b, b ∈ p.graph.successors a → rank a < rank b) : rank x < rank G := by
  induction h with
  | last hx => exact hrank _ _ (by simp [hx])
  | step hsuc _ _ ih => exact Nat.lt_trans (hrank _ _ (by simp [hsuc])) ih

theorem rank_of_mem (h : LeadsTo p G x path) {rank : NodeId → Nat}
    (hrank : ∀ a b, b ∈ p.graph.successors a → rank a < rank b) (hz : z ∈ path) :
    rank x ≤ rank z ∧ rank z < rank G := by
  induction h with
  | last hx =>
    obtain rfl : z = _ := by simpa using hz
    exact ⟨Nat.le_refl _, hrank _ _ (by simp [hx])⟩
  | @step x y path hsuc hy hrest ih =>
    have hxy := hrank x y (by simp [hsuc])
    rcases List.mem_cons.mp hz with rfl | hz
    · exact ⟨Nat.le_refl _, Nat.lt_trans hxy (hrest.rank_lt_end hrank)⟩
    · obtain ⟨h1, h2⟩ := ih hz
      exact ⟨Nat.le_of_lt (Nat.lt_of_lt_of_le hxy h1), h2⟩

end LeadsTo

/-- Where `p` has the `ForEach` operator `F` behind `input` and the filter `G` by `f` somewhere
behind `F`, with nothing but filters between them, `q` has `G` in front of `F` and by `f'`. -/
structure Pushes (p q : Plan) (input F G : NodeId) (path : List NodeId)
    (f f' : Formula) : Prop where
  forEach : p.HasType F .forEach
  source : p.graph.predecessors F = [input]
  leads : p.LeadsTo G F path
  before : ∃ name, p.IsFilter G name f
  after : ∃ name, q.IsFilter G name f'
  other : ∀ z, z ≠ G → q.core? z = p.core? z
  predecessors : ∀ a, p.graph.successors a = [G] → ∀ z, q.graph.predecessors z =
    if z = G then [input] else if z = F then [G]
      else (p.graph.predecessors z).map (renamed G a)

namespace Pushes

variable {path : List NodeId} (h : Pushes p q input F G path f f')

include h

theorem ne : F ≠ G := by
  rintro rfl
  obtain ⟨name, hG⟩ := h.before
  exact h.forEach.not (by simp) hG.hasType

theorem hasType {t : OperatorType} : q.HasType z t ↔ p.HasType z t := by
  obtain ⟨name, hG⟩ := h.before
  obtain ⟨name', hG'⟩ := h.after
  by_cases hz : z = G
  · subst hz
    exact ⟨fun ht => ht.unique hG'.hasType ▸ hG.hasType, fun ht =>
      ht.unique hG.hasType ▸ hG'.hasType⟩
  · rw [hasType_iff_core?, hasType_iff_core?, h.other z hz]

/-- The last operator before the moved filter, which takes over its outputs. -/
theorem exists_above (hp : p.graph.WellFormed) :
    ∃ a ∈ path, p.graph.successors a = [G] ∧ a ≠ G := by
  obtain ⟨a, ha, hsuc⟩ := h.leads.exists_last
  exact ⟨a, ha, hsuc, hp.ne_of_edge (by simp [hsuc])⟩

theorem acyclic (hq : q.graph.WellFormed) (hp : p.graph.WellFormed) (hac : p.graph.Acyclic) :
    q.graph.Acyclic := by
  obtain ⟨rank, hrank⟩ := hac
  obtain ⟨a, ha, hsuc, haG⟩ := h.exists_above hp
  have hedge : ∀ {x y}, x ∈ p.graph.predecessors y → rank x < rank y := fun hx =>
    hrank _ _ ((hp.edge _ _).mpr hx)
  have hin : rank input < rank F := hedge (by simp [h.source])
  have hFG := h.leads.rank_lt_end hrank
  have hinG : input ≠ G := by rintro rfl; omega
  have hne := h.ne
  -- the moved filter comes right before `F`
  refine ⟨fun z => if z = G then 2 * rank F - 1 else 2 * rank z, fun x y hy => ?_⟩
  have hx := (hq.edge x y).mp hy
  rw [h.predecessors a hsuc] at hx
  by_cases hyG : y = G
  · rw [if_pos hyG, List.mem_singleton] at hx
    simp only [hyG, hx, if_true, if_neg hinG]
    omega
  rw [if_neg hyG] at hx
  by_cases hyF : y = F
  · rw [if_pos hyF, List.mem_singleton] at hx
    simp only [hyF, hx, if_true, if_neg hne]
    omega
  rw [if_neg hyF] at hx
  obtain ⟨v, hv, rfl⟩ := List.mem_map.mp hx
  have hlt := hedge hv
  by_cases hvG : v = G
  · have := h.leads.rank_of_mem hrank ha
    rw [hvG] at hlt
    simp only [hvG, renamed_self, if_neg haG, if_neg hyG]
    omega
  · simp only [renamed_of_ne hvG, if_neg hvG, if_neg hyG]
    omega

/-- Moving a filter keeps a plan valid if the moved formula is. -/
theorem rewired (hq : q.graph.WellFormed) (hp : p.Sound) (hv : p.Valid)
    (hf' : f'.Sound ∧ f'.Valid ∧ ∀ col ∈ f'.columns, col.1 < 1) : Rewired p q := by
  obtain ⟨name, hG⟩ := h.before
  obtain ⟨name', hG'⟩ := h.after
  obtain ⟨a, ha, hsuc, haG⟩ := h.exists_above hp.wellFormed
  have hnoG : ∀ t, t ≠ .filter → ¬p.HasType G t := fun t ht => hG.hasType.not (Ne.symm ht)
  have hno : ∀ t, t ≠ .filter → t ≠ .forEach → ¬p.HasType a t := fun t ht htF => by
    by_cases haF : a = F
    · exact haF ▸ h.forEach.not (Ne.symm htF)
    · exact (h.leads.filter_of_mem ha haF).not (Ne.symm ht)
  have hinput : ¬p.HasType input .store := by
    rintro ⟨opi, hopi, hstore⟩
    have hs := ((hv.operators input opi hopi).other (by simp [hstore])).stored hstore F
      ((hp.wellFormed.edge input F).mpr (by simp [h.source]))
    exact h.forEach.not (by simp) hs
  have hmoved : ∀ x, renamed G a x = x ∨
      (¬p.HasType x .store ∧ ¬q.HasType (renamed G a x) .store) := fun x => by
    by_cases hx : x = G
    · subst hx
      rw [renamed_self, h.hasType]
      exact .inr ⟨hnoG _ (by simp), hno _ (by simp) (by simp)⟩
    · exact .inl (renamed_of_ne hx)
  refine ⟨h.acyclic hq hp.wellFormed hv.acyclic, fun z t ht => ⟨fun hz => h.other z ?_, fun hz =>
    h.other z ?_⟩, fun z t ht hz => ?_, fun z nz g hz => ?_⟩
  · rintro rfl; exact hnoG t ht hz
  · rintro rfl; exact hnoG t ht (h.hasType.mp hz)
  · have hzG : z ≠ G := by rintro rfl; exact hnoG t ht (h.hasType.mp hz)
    by_cases hzF : z = F
    · refine ⟨fun _ => G, ?_, fun x hx => .inr ⟨?_, ?_⟩⟩
      · rw [h.predecessors a hsuc, if_neg hzG, if_pos hzF, hzF, h.source]
        rfl
      · obtain rfl : x = input := by simpa [hzF, h.source] using hx
        exact hinput
      · rw [h.hasType]
        exact hnoG _ (by simp)
    · refine ⟨renamed G a, ?_, fun x _ => hmoved x⟩
      rw [h.predecessors a hsuc, if_neg hzG, if_neg hzF]
  · by_cases hzG : z = G
    · subst hzG
      obtain ⟨rfl, -⟩ := hz.unique hG'
      refine ⟨hf'.1, hf'.2.1, hf'.2.2, input, ?_, ?_⟩
      · rw [h.predecessors a hsuc, if_pos rfl]
      · rw [h.hasType]; exact hinput
    · have hz' : p.IsFilter z nz g := (h.other z hzG).symm.trans hz
      have hzF : z ≠ F := by rintro rfl; exact h.forEach.not (by simp) hz'.hasType
      obtain ⟨hs, hval, hcols, b, hb, hbstore⟩ := hz'.predicate hp hv
      refine ⟨hs, hval, hcols, renamed G a b, ?_, ?_⟩
      · rw [h.predecessors a hsuc, if_neg hzG, if_neg hzF, hb, List.map_singleton]
      · rcases hmoved b with heq | ⟨-, hno⟩
        · rw [heq, h.hasType]
          exact fun hs => hbstore _ hs rfl
        · exact hno

end Pushes

end Dataflow.Plan

import Dataflow.Proofs.Engine.Running
import Dataflow.Proofs.Rewrite.Steps

/-!
# Rewriting keeps the meaning

Where one plan solves its equations, so does a rewritten one, by meanings that differ only at the
filters that changed and, for a filter that moved up, between its new and its old place. What is
stored is the same. `Simulates` says what the rewritings have in common; they differ in which
filters may fail where none did before.
-/

namespace Dataflow.Plan

open Dataflow.Graph Formula

variable {p q r : Plan} {s : Storage} {d d' : NodeId → Meaning} {a x y z u w F G input : NodeId}
  {op : Operator} {f f' g l : Formula} {name : Option String}

/-! ## Filters -/

/-- What a filter makes of an input. -/
def filtered (f : Formula) (m : Meaning) : Meaning :=
  ⟨m.layout, List.filter (Relation.keeps f) m.rows⟩

theorem Solves.blank_layout (hd : Solves s p d) (hz : p.graph.contains z = true) :
    (d z).layout.map Schema.blank = (d z).layout := by
  rw [contains_eq_core?] at hz
  obtain ⟨op, hop⟩ := Option.isSome_iff_exists.mp hz
  have hblank := Operation.blank_layout? op.operation
    (((p.dataInputs z).map d).map Meaning.layout)
  rw [hd z op hop, Operation.meaning]
  dsimp only
  rw [← hblank]
  cases op.operation.layout? (((p.dataInputs z).map d).map Meaning.layout) with
  | none => rfl
  | some t => cases t <;> simp

theorem meaning_filter {m : Meaning} (hm : m.layout.map Schema.blank = m.layout) :
    (Operation.filter f).meaning s [m] = filtered f m := by
  unfold Operation.meaning filtered Operation.layout?
  change Meaning.mk (m.layout.map Schema.blank) _ = _
  rw [hm]
  rfl

theorem Solves.filter (hd : Solves s p d) (hz : p.IsFilter z name f)
    (ha : p.graph.predecessors z = [a]) (hca : p.graph.contains a = true) :
    d z = filtered f (d a) := by
  rw [hd z _ hz, hz.dataInputs, ha]
  exact meaning_filter (hd.blank_layout hca)

theorem filtered_comm (m : Meaning) : filtered f (filtered g m) = filtered g (filtered f m) := by
  unfold filtered
  dsimp only
  rw [List.filter_filter, List.filter_filter]
  congr 2
  funext row
  exact Bool.and_comm _ _

/-- A filter by a conjunction keeps what both filters keep. -/
theorem filtered_conjunction (h : IsConjunction f l g) (m : Meaning) :
    filtered g (filtered l m) = filtered f m := by
  unfold filtered
  dsimp only
  rw [List.filter_filter]
  congr 2
  funext row
  rw [Bool.eq_iff_iff, Bool.and_eq_true]
  simp only [Relation.keeps_eq_true]
  rw [h.holds_iff, and_comm]

theorem succeedsAt_filter (hz : p.IsFilter z name f) (ha : p.graph.predecessors z = [a]) :
    SucceedsAt s p d z ↔ ∀ row ∈ (d a).rows, ∃ k, f.holds [row] = .ok k := by
  unfold SucceedsAt
  rw [hz]
  simp only [Option.some.injEq, forall_eq', hz.dataInputs, ha]
  rfl

/-! ## What rewritings have in common -/

/-- Operators other than filters are the same in both plans, succeed in the second one where they do
in the first, and feed there what they fed. They mean the same, except that rows that a filter drops
may no longer come out of a `ForEach`. -/
structure Simulates (s : Storage) (p : Plan) (d : NodeId → Meaning) (q : Plan)
    (d' : NodeId → Meaning) : Prop where
  solves : Solves s q d'
  kept : ∀ z t, t ≠ .filter → (p.HasType z t ↔ q.HasType z t) ∧
    (p.HasType z t → q.core? z = p.core? z)
  means : ∀ z t, t ≠ .filter → t ≠ .forEach → p.HasType z t → d' z = d z
  passed : ∀ z, p.HasType z .forEach → (d' z).rows.Sublist (d z).rows
  inRange : p.InRange d → q.InRange d'
  succeeds : ∀ z t, t ≠ .filter → p.HasType z t → SucceedsAt s p d z → SucceedsAt s q d' z
  feeds : ∀ x z t, p.HasType x .store → t ≠ .filter → p.HasType z t → Feeds q x z → Feeds p x z

namespace Simulates

theorem refl (h : Solves s p d) : Simulates s p d p d :=
  ⟨h, fun _ _ _ => ⟨.rfl, fun _ => rfl⟩, fun _ _ _ _ _ => rfl, fun _ _ => .refl _, id,
    fun _ _ _ _ => id, fun _ _ _ _ _ _ => id⟩

theorem trans {d'' : NodeId → Meaning} (h : Simulates s p d q d') (h' : Simulates s q d' r d'') :
    Simulates s p d r d'' where
  solves := h'.solves
  kept z t ht := ⟨(h.kept z t ht).1.trans (h'.kept z t ht).1, fun hz =>
    ((h'.kept z t ht).2 ((h.kept z t ht).1.mp hz)).trans ((h.kept z t ht).2 hz)⟩
  means z t ht ht' hz := (h'.means z t ht ht' ((h.kept z t ht).1.mp hz)).trans
    (h.means z t ht ht' hz)
  passed z hz := (h'.passed z ((h.kept z .forEach (by simp)).1.mp hz)).trans (h.passed z hz)
  inRange hp := h'.inRange (h.inRange hp)
  succeeds z t ht hz hs := h'.succeeds z t ht ((h.kept z t ht).1.mp hz) (h.succeeds z t ht hz hs)
  feeds x z t hx ht hz hf := h.feeds x z t hx ht hz
    (h'.feeds x z t ((h.kept x .store (by simp)).1.mp hx) ht ((h.kept z t ht).1.mp hz) hf)

theorem stored (h : Simulates s p d q d') (hz : p.HasType z .store) : d' z = d z :=
  h.means z .store (by simp) (by simp) hz

end Simulates

/-! ## Cascades -/

namespace Cascade

variable (h : Cascade p q u w f l g)

include h

/-- The meanings of the plan with two filters: the second one means what the single one does. -/
def meaning (_h : Cascade p q u w f l g) (s : Storage) (d : NodeId → Meaning) : NodeId → Meaning :=
  fun z => if z = u then (Operation.filter l).meaning s ((p.dataInputs u).map d)
    else if z = w then d u else d z

theorem meaning_of_ne (hzu : z ≠ u) (hzw : z ≠ w) : h.meaning s d z = d z := by
  rw [meaning, if_neg hzu, if_neg hzw]

theorem meaning_second : h.meaning s d w = d u := by
  rw [meaning, if_neg h.ne.symm, if_pos rfl]

theorem meaning_renamed (hz : z ≠ w) : h.meaning s d (renamed u w z) = d z := by
  by_cases hzu : z = u
  · rw [hzu, renamed_self, h.meaning_second]
  · rw [renamed_of_ne hzu, h.meaning_of_ne hzu hz]

/-- The inputs of an operator other than the two filters mean what they meant. -/
theorem map_meaning (hp : p.graph.WellFormed) (hzw : z ≠ w) :
    (q.dataInputs z).map (h.meaning s d) = (p.dataInputs z).map d := by
  rw [h.dataInputs_of_ne hzw, List.map_map]
  exact List.map_congr_left fun x hx => h.meaning_renamed fun hxw =>
    h.predecessors_absent hp (hxw ▸ mem_predecessors_of_mem_dataInputs hx)

theorem predecessors_first {a : NodeId} (hp : p.graph.WellFormed)
    (ha : p.graph.predecessors u = [a]) : q.graph.predecessors u = [a] ∧ a ≠ u ∧ a ≠ w := by
  have hau : a ≠ u := hp.ne_of_edge ((hp.edge a u).mpr (by simp [ha]))
  refine ⟨?_, hau, ?_⟩
  · rw [h.predecessors_of_ne h.ne, ha, List.map_singleton, renamed_of_ne hau]
  · rintro rfl
    exact h.predecessors_absent hp (z := u) (by simp [ha])

theorem meaning_first {a : NodeId} (hp : p.graph.WellFormed)
    (ha : p.graph.predecessors u = [a]) (hd : Solves s p d) :
    h.meaning s d u = filtered l (d a) := by
  obtain ⟨name, hu⟩ := h.whole
  rw [meaning, if_pos rfl, hu.dataInputs, ha]
  exact meaning_filter (hd.blank_layout (hp.source (b := u) (by simp [ha])))

theorem solves (hp : p.Sound) (hv : p.Valid) (hd : Solves s p d) :
    Solves s q (h.meaning s d) := by
  obtain ⟨name, hu⟩ := h.whole
  obtain ⟨name₁, hu'⟩ := h.first
  obtain ⟨name₂, hw'⟩ := h.second
  obtain ⟨-, -, -, a, ha, -⟩ := hu.predicate hp hv
  obtain ⟨haq, hau, haw⟩ := h.predecessors_first hp.wellFormed ha
  have hca := hp.wellFormed.source (b := u) (a := a) (by simp [ha])
  have hfirst := h.meaning_first hp.wellFormed ha hd
  intro z op hop
  by_cases hzu : z = u
  · subst hzu
    obtain rfl : op = _ := Option.some.inj (hop.symm.trans hu')
    rw [hu'.dataInputs, haq, List.map_singleton, h.meaning_of_ne hau haw, hfirst]
    exact (meaning_filter (hd.blank_layout hca)).symm
  by_cases hzw : z = w
  · subst hzw
    obtain rfl : op = _ := Option.some.inj (hop.symm.trans hw')
    rw [hw'.dataInputs, h.predecessors, if_pos rfl, List.map_singleton, h.meaning_second, hfirst,
      hd.filter hu ha hca]
    dsimp only
    rw [meaning_filter (m := filtered l (d a)) (hd.blank_layout hca)]
    exact (filtered_conjunction h.conjunction _).symm
  · rw [h.meaning_of_ne hzu hzw, h.map_meaning hp.wellFormed hzw]
    exact hd z op ((h.other z hzu hzw).symm.trans hop)

/-- Operators other than the two filters fail where they did. -/
theorem succeedsAt (hp : p.graph.WellFormed) (hzu : z ≠ u) (hzw : z ≠ w) :
    SucceedsAt s q (h.meaning s d) z ↔ SucceedsAt s p d z := by
  unfold SucceedsAt
  rw [h.other z hzu hzw, h.map_meaning hp hzw]

/-- Where the filter by the conjunction succeeds, so do both filters. -/
theorem filters_succeed (hp : p.Sound) (hv : p.Valid) (hd : Solves s p d)
    (hs : SucceedsAt s p d u) :
    SucceedsAt s q (h.meaning s d) u ∧ SucceedsAt s q (h.meaning s d) w := by
  obtain ⟨name, hu⟩ := h.whole
  obtain ⟨name₁, hu'⟩ := h.first
  obtain ⟨name₂, hw'⟩ := h.second
  obtain ⟨-, -, -, a, ha, -⟩ := hu.predicate hp hv
  obtain ⟨haq, hau, haw⟩ := h.predecessors_first hp.wellFormed ha
  have hpw : q.graph.predecessors w = [u] := by rw [h.predecessors, if_pos rfl]
  rw [succeedsAt_filter hu ha] at hs
  rw [succeedsAt_filter hu' haq, succeedsAt_filter hw' hpw, h.meaning_of_ne hau haw,
    h.meaning_first hp.wellFormed ha hd]
  refine ⟨fun row hrow => ?_, fun row hrow => ?_⟩
  · obtain ⟨k, hk⟩ := hs row hrow
    obtain ⟨i, hi, -⟩ := h.conjunction.holds_eq_ok hk
    exact ⟨i, hi⟩
  · -- the second filter sees only rows that the first one keeps
    obtain ⟨hrow, hkeeps⟩ := List.mem_filter.mp hrow
    obtain ⟨k, hk⟩ := hs row hrow
    obtain ⟨i, hi, htrue, -⟩ := h.conjunction.holds_eq_ok hk
    rw [Relation.keeps_eq_true, hi] at hkeeps
    exact ⟨k, htrue (Except.ok.inj hkeeps)⟩

/-- What feeds a store feeds it in the plan with the single filter, too. -/
theorem feeds (hp : p.graph.WellFormed) {t : NodeId} (ht : t ≠ w) (hz : Feeds q t z) :
    Feeds p t (renamed w u z) := by
  induction hz with
  | refl => rw [renamed_of_ne ht]; exact .refl
  | @step x y hx _ ih =>
    by_cases hyw : y = w
    · rw [hyw, renamed_self] at ih
      have hxu : x = u := by
        have := mem_predecessors_of_mem_dataInputs hx
        simpa [hyw, h.predecessors] using this
      rw [hxu, renamed_of_ne h.ne]
      exact ih
    · rw [h.dataInputs_of_ne hyw] at hx
      obtain ⟨x', hx', rfl⟩ := List.mem_map.mp hx
      rw [renamed_of_ne hyw] at ih
      have hx'w : x' ≠ w := by
        rintro rfl
        exact h.predecessors_absent hp (mem_predecessors_of_mem_dataInputs hx')
      rw [renamed_back hx'w]
      exact .step hx' ih

/-- What feeds a store feeds it in the plan with two filters, too. -/
theorem feeds_back {t : NodeId} (ht : t ≠ u) (hz : Feeds p t z) :
    Feeds q t (renamed u w z) := by
  obtain ⟨name₂, hw'⟩ := h.second
  induction hz with
  | refl => rw [renamed_of_ne ht]; exact .refl
  | @step x y hx _ ih =>
    have hpre := mem_predecessors_of_mem_dataInputs hx
    have hyw := h.ne_of_contains (contains_of_mem_predecessors hpre)
    have hmem : renamed u w x ∈ q.dataInputs y := by
      rw [h.dataInputs_of_ne hyw]
      exact List.mem_map_of_mem hx
    by_cases hyu : y = u
    · -- the first filter feeds the second
      rw [hyu, renamed_self] at ih
      have huw : u ∈ q.dataInputs w := by simp [hw'.dataInputs, h.predecessors]
      exact .step (hyu ▸ hmem) (.step huw ih)
    · rw [renamed_of_ne hyu] at ih
      exact .step hmem ih

/-- Splitting keeps the meaning. -/
theorem simulates (hp : p.Sound) (hv : p.Valid) (hd : Solves s p d) :
    Simulates s p d q (h.meaning s d) where
  solves := h.solves hp hv hd
  kept z t ht := ⟨(h.hasType_of_ne_filter ht).symm, h.core?_of_hasType ht⟩
  means z t ht _ hz := by
    obtain ⟨hzu, hzw⟩ := h.ne_of_not_filter ht hz
    exact h.meaning_of_ne hzu hzw
  passed z hz := by
    obtain ⟨hzu, hzw⟩ := h.ne_of_not_filter (by simp) hz
    rw [h.meaning_of_ne hzu hzw]
  inRange hin z op hop := by
    obtain ⟨name₁, hu'⟩ := h.first
    obtain ⟨name₂, hw'⟩ := h.second
    by_cases hzu : z = u
    · rw [hzu, hu'] at hop
      rw [← Option.some.inj hop]
      rfl
    by_cases hzw : z = w
    · rw [hzw, hw'] at hop
      rw [← Option.some.inj hop]
      rfl
    · have := hin z op ((h.other z hzu hzw).symm.trans hop)
      rwa [← h.map_meaning hp.wellFormed hzw] at this
  succeeds z t ht hz hs := by
    obtain ⟨hzu, hzw⟩ := h.ne_of_not_filter ht hz
    exact (h.succeedsAt hp.wellFormed hzu hzw).mpr hs
  feeds x z t hx ht hz hf := by
    have := h.feeds hp.wellFormed (h.ne_of_not_filter (by simp) hx).2 hf
    rwa [renamed_of_ne (h.ne_of_not_filter ht hz).2] at this

/-- Merging keeps the meaning. -/
theorem simulates_back (hp : p.Sound) (hv : p.Valid) (hq : q.Sound) (hvq : q.Valid)
    (hd' : Solves s q d') : ∃ d, Simulates s q d' p d := by
  obtain ⟨d, hd⟩ := exists_solves s hp.wellFormed hv.acyclic
  have hsame : ∀ z, q.graph.contains z = true → d' z = h.meaning s d z :=
    hd'.unique hq.wellFormed hvq.acyclic (h.solves hp hv hd)
  have hne : ∀ z t, t ≠ .filter → q.HasType z t → z ≠ u ∧ z ≠ w := fun z t ht hz =>
    h.ne_of_not_filter ht ((h.hasType_of_ne_filter ht).mp hz)
  have hinputs : ∀ z, (q.dataInputs z).map d' = (q.dataInputs z).map (h.meaning s d) := fun z =>
    List.map_congr_left fun x hx => hsame x (contains_of_mem_dataInputs hq.wellFormed hx)
  refine ⟨d, hd, fun z t ht => ⟨h.hasType_of_ne_filter ht, fun hz =>
    (h.core?_of_hasType ht ((h.hasType_of_ne_filter ht).mp hz)).symm⟩, fun z t ht _ hz => ?_,
    fun z hz => ?_, fun hin z op hop => ?_, fun z t ht hz hs => ?_, fun x z t hx ht hz hf => ?_⟩
  · obtain ⟨hzu, hzw⟩ := hne z t ht hz
    rw [hsame z hz.contains, h.meaning_of_ne hzu hzw]
  · obtain ⟨hzu, hzw⟩ := hne z _ (by simp) hz
    rw [hsame z hz.contains, h.meaning_of_ne hzu hzw]
  · obtain ⟨name, hu⟩ := h.whole
    by_cases hzu : z = u
    · rw [hzu, hu] at hop
      rw [← Option.some.inj hop]
      rfl
    have hzw := h.ne_of_core? hop
    have := hin z op ((h.other z hzu hzw).trans hop)
    rwa [hinputs, h.map_meaning hp.wellFormed hzw] at this
  · obtain ⟨hzu, hzw⟩ := hne z t ht hz
    refine (h.succeedsAt hp.wellFormed hzu hzw).mp ?_
    unfold SucceedsAt at hs ⊢
    rwa [← hinputs]
  · have := h.feeds_back (hne x _ (by simp) hx).1 hf
    rwa [renamed_of_ne (hne z t ht hz).1] at this

end Cascade

/-! ## Moved filters -/

/-- On the rows of the input, the filter behind the items keeps what the moved filter keeps of the
rows from which the items are generated. -/
def Carries (p : Plan) (d : NodeId → Meaning) (input F : NodeId) (f f' : Formula) : Prop :=
  ∀ name items, p.core? F = some { name, operation := .forEach items } →
    ∀ row ∈ (d input).rows, ∀ out ∈ Relation.generated items row,
      Relation.keeps f out = Relation.keeps f' row

theorem HasType.forEach (h : p.HasType F .forEach) :
    ∃ name items, p.core? F = some { name, operation := .forEach items } := by
  obtain ⟨op, hop, ht⟩ := h
  cases ho : op.operation <;> simp [Operator.type, ho, Operation.type] at ht
  rename_i items
  exact ⟨op.name, items, by simp [core?, hop, Operator.core, ho, Operation.withoutUids]⟩

theorem filter_flatMap_of_keeps {items : List Item} {rel : Relation}
    (h : ∀ row ∈ rel, ∀ out ∈ Relation.generated items row,
      Relation.keeps f out = Relation.keeps f' row) :
    List.filter (Relation.keeps f) (rel.flatMap (Relation.generated items)) =
      (List.filter (Relation.keeps f') rel).flatMap (Relation.generated items) := by
  induction rel with
  | nil => rfl
  | cons row rel ih =>
    obtain ⟨hrow, hrel⟩ := List.forall_mem_cons.mp h
    rw [List.flatMap_cons, List.filter_append, ih hrel, List.filter_cons]
    cases hk : Relation.keeps f' row with
    | true =>
      rw [if_pos rfl, List.flatMap_cons, List.filter_eq_self.mpr fun out hout => by
        rw [hrow out hout, hk]]
    | false =>
      rw [if_neg (by simp), List.filter_eq_nil_iff.mpr fun out hout => by
        simp [hrow out hout, hk], List.nil_append]

namespace Pushes

variable {path : List NodeId} (h : Pushes p q input F G path f f')

include h

open Classical in
/-- The meanings of the plan with the moved filter: between its new and its old place there are
only rows that it keeps. -/
noncomputable def meaning (_h : Pushes p q input F G path f f') (d : NodeId → Meaning) :
    NodeId → Meaning :=
  fun z => if z = G then filtered f' (d input) else if z ∈ path then filtered f (d z) else d z

theorem meaning_moved : h.meaning d G = filtered f' (d input) := by
  rw [meaning, if_pos rfl]

theorem meaning_of_mem (hzG : z ≠ G) (hz : z ∈ path) : h.meaning d z = filtered f (d z) := by
  rw [meaning, if_neg hzG, if_pos hz]

theorem meaning_of_notMem (hzG : z ≠ G) (hz : z ∉ path) : h.meaning d z = d z := by
  rw [meaning, if_neg hzG, if_neg hz]

theorem end_notMem (hac : p.graph.Acyclic) : G ∉ path := fun hG => by
  obtain ⟨rank, hrank⟩ := hac
  exact absurd (h.leads.rank_of_mem hrank hG).2 (Nat.lt_irrefl _)

theorem input_apart (hwf : p.graph.WellFormed) (hac : p.graph.Acyclic) :
    input ≠ G ∧ input ∉ path := by
  obtain ⟨rank, hrank⟩ := hac
  have hin : rank input < rank F := hrank _ _ ((hwf.edge _ _).mpr (by simp [h.source]))
  have hFG := h.leads.rank_lt_end hrank
  refine ⟨?_, fun hmem => ?_⟩
  · rintro rfl
    omega
  · have := (h.leads.rank_of_mem hrank hmem).1
    omega

/-- Operators that are neither moved nor passed take nothing from those that are passed. -/
theorem input_notMem (hwf : p.graph.WellFormed) (hzG : z ≠ G) (hz : z ∉ path)
    (hx : x ∈ p.graph.predecessors z) : x ∉ path := fun hmem => by
  obtain ⟨y, hy, hplace⟩ := h.leads.output_of_mem hmem
  have : z ∈ p.graph.successors x := (hwf.edge x z).mpr hx
  rw [hy, List.mem_singleton] at this
  subst this
  rcases hplace with rfl | hplace
  · exact hzG rfl
  · exact hz hplace

theorem predecessors_end (hsuc : p.graph.successors a = [G]) (hp : p.Sound) (hv : p.Valid) :
    p.graph.predecessors G = [a] := by
  obtain ⟨name, hG⟩ := h.before
  exact hG.predecessors_eq hp hv (by simp [hsuc])

/-- The last operator that is passed means what the filter meant at its old place. -/
theorem meaning_above (hp : p.Sound) (hv : p.Valid) (hd : Solves s p d)
    (hsuc : p.graph.successors a = [G]) (ha : a ∈ path) : h.meaning d a = d G := by
  obtain ⟨name, hG⟩ := h.before
  have haG := hp.wellFormed.ne_of_edge (a := a) (b := G) (by simp [hsuc])
  have hpre := h.predecessors_end hsuc hp hv
  rw [h.meaning_of_mem haG ha, hd.filter hG hpre (hp.wellFormed.source (b := G) (by simp [hpre]))]

/-- The inputs of an operator that is neither moved nor passed mean what they meant. -/
theorem map_meaning (hp : p.Sound) (hv : p.Valid) (hd : Solves s p d) (hzG : z ≠ G)
    (hz : z ∉ path) : (q.dataInputs z).map (h.meaning d) = (p.dataInputs z).map d := by
  obtain ⟨a, ha, hsuc, haG⟩ := h.exists_above hp.wellFormed
  have hzF : z ≠ F := fun hzF => hz (hzF ▸ h.leads.mem_self)
  have hpre : (q.graph.predecessors z).map (h.meaning d) = (p.graph.predecessors z).map d := by
    rw [h.predecessors a hsuc, if_neg hzG, if_neg hzF, List.map_map]
    refine List.map_congr_left fun x hx => ?_
    by_cases hxG : x = G
    · rw [Function.comp_apply, hxG, renamed_self, h.meaning_above hp hv hd hsuc ha]
    · rw [Function.comp_apply, renamed_of_ne hxG,
        h.meaning_of_notMem hxG (h.input_notMem hp.wellFormed hzG hz hx)]
  cases hop : p.core? z with
  | none =>
    rw [dataInputs_of_none hop, dataInputs_of_none ((h.other z hzG).trans hop)]
    rfl
  | some op =>
    rw [dataInputs_of_core? hop, dataInputs_of_core? ((h.other z hzG).trans hop)]
    split
    · rfl
    · exact hpre

theorem dataInputs_forEach (hp : p.graph.WellFormed) :
    p.dataInputs F = [input] ∧ q.dataInputs F = [G] := by
  obtain ⟨a, ha, hsuc, haG⟩ := h.exists_above hp
  obtain ⟨op, hop, ht⟩ := hasType_iff_core?.mp h.forEach
  rw [dataInputs_of_core? hop, dataInputs_of_core? ((h.other F h.ne).trans hop),
    if_neg (by simp [ht]), if_neg (by simp [ht]), h.predecessors a hsuc, if_neg h.ne, if_pos rfl]
  exact ⟨h.source, rfl⟩

theorem solves (hp : p.Sound) (hv : p.Valid) (hd : Solves s p d)
    (hcarries : Carries p d input F f f') : Solves s q (h.meaning d) := by
  obtain ⟨name, hG⟩ := h.before
  obtain ⟨name', hG'⟩ := h.after
  obtain ⟨a, ha, hsuc, haG⟩ := h.exists_above hp.wellFormed
  obtain ⟨hinG, hin⟩ := h.input_apart hp.wellFormed hv.acyclic
  have hcin := hp.wellFormed.source (b := F) (a := input) (by simp [h.source])
  obtain ⟨hinF, hinF'⟩ := h.dataInputs_forEach hp.wellFormed
  intro z op hop
  by_cases hzG : z = G
  · subst hzG
    obtain rfl : op = _ := Option.some.inj (hop.symm.trans hG')
    rw [hG'.dataInputs, h.predecessors a hsuc, if_pos rfl, List.map_singleton,
      h.meaning_of_notMem hinG hin, h.meaning_moved]
    exact (meaning_filter (hd.blank_layout hcin)).symm
  have hcore := (h.other z hzG).symm.trans hop
  by_cases hzF : z = F
  · subst hzF
    obtain ⟨nameF, items, hitems⟩ := h.forEach.forEach
    obtain rfl : op = _ := Option.some.inj (hcore.symm.trans hitems)
    rw [h.meaning_of_mem h.ne h.leads.mem_self, hd z _ hitems, hinF, hinF', List.map_singleton,
      List.map_singleton, h.meaning_moved]
    unfold filtered Operation.meaning
    dsimp only [List.map_singleton]
    congr 1
    exact filter_flatMap_of_keeps (hcarries nameF items hitems)
  by_cases hz : z ∈ path
  · -- the filters that are passed see only rows that the moved one keeps
    obtain ⟨nz, g, hg⟩ := (h.leads.filter_of_mem hz hzF).isFilter
    obtain rfl : op = _ := Option.some.inj (hcore.symm.trans hg)
    obtain ⟨y, hy, hsucy⟩ := h.leads.input_of_mem hz hzF
    have hpre := IsFilter.predecessors_eq hg hp hv (x := y) (by simp [hsucy])
    have hyG : y ≠ G := fun hyG => h.end_notMem hv.acyclic (hyG ▸ hy)
    have hcy := hp.wellFormed.source (b := z) (a := y) (by simp [hpre])
    have hg' : q.IsFilter z nz g := hop
    rw [h.meaning_of_mem hzG hz, hg'.dataInputs, h.predecessors a hsuc, if_neg hzG, if_neg hzF,
      hpre, List.map_singleton, renamed_of_ne hyG, List.map_singleton, h.meaning_of_mem hyG hy,
      hd.filter hg hpre hcy, filtered_comm]
    exact (meaning_filter (m := filtered f (d y)) (hd.blank_layout hcy)).symm
  · rw [h.meaning_of_notMem hzG hz, h.map_meaning hp hv hd hzG hz]
    exact hd z op hcore

/-- What is passed leads to a store only through the moved filter. -/
theorem feeds_end {t : NodeId} (hwf : p.graph.WellFormed) (ht : t ∉ path) (hz : Feeds p t z)
    (hmem : z ∈ path) : Feeds p t G := by
  induction hz with
  | refl => exact absurd hmem ht
  | @step x y hx hfeeds ih =>
    obtain ⟨y', hsuc, hplace⟩ := h.leads.output_of_mem hmem
    have : y ∈ p.graph.successors x :=
      (hwf.edge x y).mpr (mem_predecessors_of_mem_dataInputs hx)
    rw [hsuc, List.mem_singleton] at this
    subst this
    rcases hplace with rfl | hy
    · exact hfeeds
    · exact ih hy

end Pushes

theorem LeadsTo.feeds {path : List NodeId} (h : p.LeadsTo G x path) (hwf : p.graph.WellFormed)
    (hG : p.HasType G .filter) : Feeds p G x := by
  have hstep : ∀ {y z}, p.graph.successors y = [z] → p.HasType z .filter → y ∈ p.dataInputs z :=
    fun hy hz => by
      obtain ⟨name, f, hf⟩ := hz.isFilter
      rw [hf.dataInputs]
      exact (hwf.edge _ _).mp (by simp [hy])
  induction h with
  | last hsuc => exact .step (hstep hsuc hG) .refl
  | step hsuc hy _ ih => exact .step (hstep hsuc hy) ih

namespace Pushes

variable {path : List NodeId} (h : Pushes p q input F G path f f')

include h

/-- What feeds a store after a filter moved fed it before. -/
theorem feeds {t : NodeId} (hp : p.Sound) (hv : p.Valid) (ht : t ∉ path) (hz : Feeds q t z) :
    Feeds p t z := by
  obtain ⟨name, hG⟩ := h.before
  obtain ⟨name', hG'⟩ := h.after
  obtain ⟨a, ha, hsuc, haG⟩ := h.exists_above hp.wellFormed
  have hpre := h.predecessors_end hsuc hp hv
  obtain ⟨hinF, hinF'⟩ := h.dataInputs_forEach hp.wellFormed
  induction hz with
  | refl => exact .refl
  | @step x y hx _ ih =>
    have hxq := mem_predecessors_of_mem_dataInputs hx
    by_cases hyG : y = G
    · -- the input leads to the moved filter through what is passed
      obtain rfl : x = input := by
        rw [hyG, h.predecessors a hsuc, if_pos rfl] at hxq
        simpa using hxq
      have hF := h.leads.feeds hp.wellFormed hG.hasType
      exact .step (by rw [hinF]; simp) ((hyG ▸ ih).trans hF)
    by_cases hyF : y = F
    · obtain rfl : x = G := by
        rw [hyF, hinF'] at hx
        simpa using hx
      exact h.feeds_end hp.wellFormed ht (hyF ▸ ih) h.leads.mem_self
    · rw [h.predecessors a hsuc, if_neg hyG, if_neg hyF] at hxq
      obtain ⟨x', hx', rfl⟩ := List.mem_map.mp hxq
      have hin : x' ∈ p.dataInputs y := by
        cases hop : p.core? y with
        | none =>
          rw [dataInputs_of_none ((h.other y hyG).trans hop)] at hx
          simp at hx
        | some op =>
          rw [dataInputs_of_core? ((h.other y hyG).trans hop)] at hx
          rw [dataInputs_of_core? hop]
          split at hx
          · simp at hx
          · rename_i hload
            rwa [if_neg hload]
      by_cases hxG : x' = G
      · rw [hxG, renamed_self]
        refine .step (y := G) ?_ (.step (hxG ▸ hin) ih)
        rw [hG.dataInputs, hpre]
        simp
      · rw [renamed_of_ne hxG]
        exact .step hin ih

/-- Moving a filter keeps the meaning if the columns that it reads are carried over. -/
theorem simulates (hp : p.Sound) (hv : p.Valid) (hd : Solves s p d)
    (hcarries : Carries p d input F f f') : Simulates s p d q (h.meaning d) := by
  have hplace : ∀ {z t}, t ≠ .filter → p.HasType z t → z ≠ G ∧ (z = F ∨ z ∉ path) := by
    intro z t ht hz
    obtain ⟨name, hG⟩ := h.before
    refine ⟨?_, ?_⟩
    · rintro rfl
      exact ht (hz.unique hG.hasType)
    · by_cases hzF : z = F
      · exact .inl hzF
      · exact .inr fun hmem => ht (hz.unique (h.leads.filter_of_mem hmem hzF))
  have hstore : ∀ {z}, p.HasType z .store → z ≠ G ∧ z ∉ path := fun hz => by
    obtain ⟨hzG, hz'⟩ := hplace (by simp) hz
    refine ⟨hzG, hz'.resolve_left ?_⟩
    rintro rfl
    exact h.forEach.not (by simp) hz
  obtain ⟨hinF, hinF'⟩ := h.dataInputs_forEach hp.wellFormed
  obtain ⟨nameF, items, hitems⟩ := h.forEach.forEach
  refine ⟨h.solves hp hv hd hcarries, fun z t ht => ⟨h.hasType.symm, fun hz =>
    h.other z (hplace ht hz).1⟩, fun z t ht ht' hz => ?_, fun z hz => ?_, fun hin z op hop => ?_,
    fun z t ht hz hs => ?_, fun x z t hx ht hz hf => h.feeds hp hv (hstore hx).2 hf⟩
  · obtain ⟨hzG, hz'⟩ := hplace ht hz
    refine h.meaning_of_notMem hzG (hz'.resolve_left ?_)
    rintro rfl
    exact ht' (hz.unique h.forEach)
  · -- what is passed has the rows that the filter keeps
    obtain ⟨hzG, -⟩ := hplace (by simp) hz
    by_cases hmem : z ∈ path
    · rw [h.meaning_of_mem hzG hmem]
      exact List.filter_sublist
    · rw [h.meaning_of_notMem hzG hmem]
  · obtain ⟨name', hG'⟩ := h.after
    by_cases hzG : z = G
    · rw [hzG, hG'] at hop
      rw [← Option.some.inj hop]
      rfl
    have hcore := (h.other z hzG).symm.trans hop
    by_cases hzF : z = F
    · -- the moved filter has the layout of the input
      have := hin z op hcore
      rw [hzF, hinF] at this
      rw [hzF, hinF', List.map_singleton, h.meaning_moved]
      exact this
    by_cases hz : z ∈ path
    · obtain ⟨nz, g, hg⟩ := (h.leads.filter_of_mem hz hzF).isFilter
      rw [← Option.some.inj (hg.symm.trans hcore)]
      rfl
    · have := hin z op hcore
      rwa [← h.map_meaning hp hv hd hzG hz] at this
  · obtain ⟨hzG, hz'⟩ := hplace ht hz
    rcases hz' with rfl | hnot
    · -- the `ForEach` sees fewer rows
      intro op hop
      have hcore := (h.other z hzG).symm.trans hop
      have := hs op hcore
      rw [hitems] at hcore
      rw [← Option.some.inj hcore] at this ⊢
      rw [hinF] at this
      rw [hinF', List.map_singleton, h.meaning_moved]
      exact fun row hrow => this row (List.mem_filter.mp hrow).1
    · unfold SucceedsAt
      rw [h.other z hzG, h.map_meaning hp hv hd hzG hnot]
      exact hs

end Pushes

end Dataflow.Plan

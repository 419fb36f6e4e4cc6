import Dataflow.Proofs.Plan.Outline
import Dataflow.Proofs.Rewrite.Reached

/-!
# Schemas across rewritings

Joins and products put the names of their inputs in front of column names, and the rules for filters
change which operator feeds them. As long as every join and every product sees its inputs under the
same names (`NamesKept`), outlines that satisfy the equations of a plan do so after a rewriting,
with those of the filters that changed; so all schemas can still be derived, and stores keep theirs
up to identities. The types of stored columns are kept in any case in which the schemas can be
derived.
-/

namespace Dataflow

open Dataflow.Graph Plan Formula

variable {p q r p' q' : Plan} {u w x z F G input : NodeId} {f f' g l : Formula} {op : Operator}
  {name : Option String} {m : Match} {rule : Rule} {region : Region} {o : NodeId → Option Schema}

namespace Plan

/-- Joins and products see their inputs under the same names. -/
def NamesKept (p q : Plan) : Prop :=
  ∀ z, p.HasType z .join ∨ p.HasType z .cross →
    (q.dataInputs z).map q.nameOf = (p.dataInputs z).map p.nameOf

theorem NamesKept.alike (h : NamesKept p q) (hp : Alike p r) : NamesKept r q := fun z hz => by
  rw [h z (hz.imp hp.hasType hp.hasType), hp.dataInputs]
  exact List.map_congr_left fun x _ => hp.nameOf.symm

namespace Outlined

/-- An equation that is about the same operator and inputs of the same outlines. -/
theorem transfer (ho : p.Outlined o) (hn : NamesKept p q) {o' : NodeId → Option Schema}
    (hop : p.core? z = some op) (hinputs : (q.dataInputs z).map o' = (p.dataInputs z).map o) :
    op.outline? ((q.dataInputs z).map o') ((q.dataInputs z).map q.nameOf) = .ok (o z) := by
  rw [hinputs, ← ho z op hop]
  refine Operator.outline?_congr_names fun htype => hn z ?_
  exact htype.imp (fun ht => hasType_iff_core?.mpr ⟨op, hop, ht⟩)
    fun ht => hasType_iff_core?.mpr ⟨op, hop, ht⟩

/-- Outlines are outlines. -/
theorem outline_eq (ho : p.Outlined o) (hz : p.graph.contains z = true) :
    (o z).map Schema.outline = o z := by
  obtain ⟨op, hop⟩ := Option.isSome_iff_exists.mp (contains_eq_core?.symm.trans hz)
  have h := op.map_outline_outline? ((p.dataInputs z).map o) ((p.dataInputs z).map p.nameOf)
  rw [ho z op hop] at h
  exact Except.ok.inj h

/-- A filter has the outline of its input. -/
theorem filter (ho : p.Outlined o) (hz : p.IsFilter z name f)
    (hx : p.graph.predecessors z = [x]) (hcx : p.graph.contains x = true) : o z = o x := by
  have h := ho z _ hz
  rw [hz.dataInputs, hx] at h
  exact (Except.ok.inj h).symm.trans (ho.outline_eq hcx)

end Outlined

/-- The equation of a filter. -/
theorem outline?_filter {s : Option Schema} (hs : s.map Schema.outline = s)
    (names : List (Option String)) :
    Operator.outline? { name, operation := .filter f } [s] names = .ok s :=
  congrArg Except.ok hs

namespace Cascade

variable (h : Cascade p q u w f l g)

include h

/-- The second of the two filters has the outline of the single one. -/
theorem outlined (hp : p.Sound) (hv : p.Valid) (hn : NamesKept p q) (ho : p.Outlined o) :
    q.Outlined (Function.update o w (o u)) := by
  obtain ⟨name, hu⟩ := h.whole
  obtain ⟨name₁, hu'⟩ := h.first
  obtain ⟨name₂, hw'⟩ := h.second
  obtain ⟨-, -, -, a, ha, -⟩ := hu.predicate hp hv
  obtain ⟨haq, hau, haw⟩ := h.predecessors_first hp.wellFormed ha
  have hca := hp.wellFormed.source (b := u) (a := a) (by simp [ha])
  have hua := ho.filter hu ha hca
  intro z op hop
  by_cases hzw : z = w
  · subst hzw
    obtain rfl : op = _ := Option.some.inj (hop.symm.trans hw')
    rw [hw'.dataInputs, h.predecessors, if_pos rfl, List.map_singleton,
      Function.update_of_ne h.ne, Function.update_self]
    exact outline?_filter (ho.outline_eq hu.hasType.contains) _
  rw [Function.update_of_ne hzw]
  by_cases hzu : z = u
  · subst hzu
    obtain rfl : op = _ := Option.some.inj (hop.symm.trans hu')
    rw [hu'.dataInputs, haq, List.map_singleton, Function.update_of_ne haw, hua]
    exact outline?_filter (ho.outline_eq hca) _
  · refine ho.transfer hn ((h.other z hzu hzw).symm.trans hop) ?_
    rw [h.dataInputs_of_ne hzw, List.map_map]
    refine List.map_congr_left fun x hx => ?_
    by_cases hxu : x = u
    · rw [Function.comp_apply, hxu, renamed_self, Function.update_self]
    · rw [Function.comp_apply, renamed_of_ne hxu, Function.update_of_ne fun hxw =>
        h.predecessors_absent hp.wellFormed (hxw ▸ mem_predecessors_of_mem_dataInputs hx)]

/-- The single filter has the outline of both. -/
theorem outlined_back (hp : p.Sound) (hv : p.Valid) (hq : q.graph.WellFormed) (hn : NamesKept q p)
    (ho : q.Outlined o) : p.Outlined o := by
  obtain ⟨name, hu⟩ := h.whole
  obtain ⟨name₁, hu'⟩ := h.first
  obtain ⟨name₂, hw'⟩ := h.second
  obtain ⟨-, -, -, a, ha, -⟩ := hu.predicate hp hv
  obtain ⟨haq, hau, haw⟩ := h.predecessors_first hp.wellFormed ha
  have hca := hq.source (b := u) (a := a) (by simp [haq])
  have hua := ho.filter hu' haq hca
  have hwu : o w = o u := ho.filter hw' (by simp [h.predecessors]) hu'.hasType.contains
  intro z op hop
  by_cases hzu : z = u
  · subst hzu
    obtain rfl : op = _ := Option.some.inj (hop.symm.trans hu)
    rw [hu.dataInputs, ha, List.map_singleton, hua]
    exact outline?_filter (ho.outline_eq hca) _
  have hzw := h.ne_of_core? hop
  refine ho.transfer hn ((h.other z hzu hzw).trans hop) ?_
  rw [h.dataInputs_of_ne hzw, List.map_map]
  refine List.map_congr_left fun x _ => ?_
  by_cases hxu : x = u
  · rw [Function.comp_apply, hxu, renamed_self, hwu]
  · rw [Function.comp_apply, renamed_of_ne hxu]

end Cascade

/-- The moved filter has the outline of the input in front of which it stands now. -/
theorem Pushes.outlined {path : List NodeId} (h : Pushes p q input F G path f f') (hp : p.Sound)
    (hv : p.Valid) (hn : NamesKept p q) (ho : p.Outlined o) :
    q.Outlined (Function.update o G (o input)) := by
  obtain ⟨name, hG⟩ := h.before
  obtain ⟨name', hG'⟩ := h.after
  obtain ⟨a, ha, hsuc, haG⟩ := h.exists_above hp.wellFormed
  have hpre := h.predecessors_end hsuc hp hv
  have hGa := ho.filter hG hpre (hp.wellFormed.source (b := G) (by simp [hpre]))
  obtain ⟨hinG, -⟩ := h.input_apart hp.wellFormed hv.acyclic
  have hcin := hp.wellFormed.source (b := F) (a := input) (by simp [h.source])
  obtain ⟨hinF, hinF'⟩ := h.dataInputs_forEach hp.wellFormed
  intro z op hop
  by_cases hzG : z = G
  · subst hzG
    obtain rfl : op = _ := Option.some.inj (hop.symm.trans hG')
    rw [hG'.dataInputs, h.predecessors a hsuc, if_pos rfl, List.map_singleton,
      Function.update_of_ne hinG, Function.update_self]
    exact outline?_filter (ho.outline_eq hcin) _
  rw [Function.update_of_ne hzG]
  refine ho.transfer hn ((h.other z hzG).symm.trans hop) ?_
  by_cases hzF : z = F
  · rw [hzF, hinF, hinF', List.map_singleton, List.map_singleton, Function.update_self]
  -- what fed the filter at its old place now feeds its outputs
  have hinputs : (q.graph.predecessors z).map (Function.update o G (o input)) =
      (p.graph.predecessors z).map o := by
    rw [h.predecessors a hsuc, if_neg hzG, if_neg hzF, List.map_map]
    refine List.map_congr_left fun x _ => ?_
    by_cases hxG : x = G
    · rw [Function.comp_apply, hxG, renamed_self, Function.update_of_ne haG, hGa]
    · rw [Function.comp_apply, renamed_of_ne hxG, Function.update_of_ne hxG]
  have hop' := (h.other z hzG).symm.trans hop
  rw [dataInputs_of_core? hop, dataInputs_of_core? hop']
  split
  · rfl
  · exact hinputs

/-! ## One application -/

/-- What an application of a rule for filters does to a plan. -/
inductive Rewrites (p q : Plan) : Prop
  | split {u w : NodeId} {f l g : Formula} : Cascade p q u w f l g → Rewrites p q
  | merge {u w : NodeId} {f l g : Formula} : Cascade q p u w f l g → Rewrites p q
  | move {input F G : NodeId} {path : List NodeId} {f f' : Formula} :
      Pushes p q input F G path f f' → Rewrites p q

namespace Rewrites

/-- Where names are kept, so are the outlines of stored schemas. -/
theorem outlined (h : Rewrites p q) (hp : p.Sound) (hv : p.Valid) (hq : q.Sound) (hvq : q.Valid)
    (hn : NamesKept p q) (ho : p.Outlined o) :
    ∃ o', q.Outlined o' ∧ ∀ z, p.HasType z .store → o' z = o z := by
  cases h with
  | split h =>
    refine ⟨_, h.outlined hp hv hn ho, fun z hz => ?_⟩
    exact Function.update_of_ne (h.ne_of_not_filter (by simp) hz).2 _ _
  | merge h => exact ⟨o, h.outlined_back hq hvq hp.wellFormed hn ho, fun _ _ => rfl⟩
  | move h =>
    obtain ⟨name, hG⟩ := h.before
    refine ⟨_, h.outlined hp hv hn ho, fun z hz => Function.update_of_ne ?_ _ _⟩
    rintro rfl
    exact hz.not (by simp) hG.hasType

/-- On a storage without records, all that stores mean is kept. -/
theorem simulates_empty {d : NodeId → Meaning} (h : Rewrites p q) (hp : p.Sound) (hv : p.Valid)
    (hq : q.Sound) (hvq : q.Valid) (hd : Solves {} p d) : ∃ d', Simulates {} p d q d' := by
  cases h with
  | split h => exact ⟨_, h.simulates hp hv hd⟩
  | merge h => exact h.simulates_back hq hvq hp hv hd
  | move h =>
    refine ⟨_, h.simulates hp hv hd fun name items _ row hrow => ?_⟩
    have hin := hp.wellFormed.source (b := _) (a := _) (h.source ▸ List.mem_singleton_self _)
    rw [hd.rows_eq_nil hp.wellFormed hv _ hin] at hrow
    simp at hrow

end Rewrites

/-- Every store has derived schemas in both plans, and they look alike. -/
def StoredAlike (view : Schema → Schema) (p q : Plan) : Prop :=
  ∀ z, p.HasType z .store → ∃ s t, p.memoOf z = some s ∧ q.memoOf z = some t ∧
    t.map view = s.map view

end Plan

open Plan

theorem Rule.rewrites
    (hrule : rule ∈ [Rule.splitFilter, Rule.mergeFilter, Rule.filterAboveForEach])
    (hp : p.CanSplit) (hm : rule.Matches p m) (hc : rule.check m p = .ok true r)
    (ht : rule.transform m r = .ok region q) :
    Extends p r ∧ r.Sound ∧ r.Valid ∧ q.Sound ∧ q.Valid ∧ Rewrites r q := by
  have hready := hp.sound.ready hp.valid
  have hmoved : Extends p r → ∀ {region' q'}, rule.transform m r = .ok region' q' → q'.CanMerge →
      Rewrites r q' → Extends p r ∧ r.Sound ∧ r.Valid ∧ q.Sound ∧ q.Valid ∧ Rewrites r q :=
    fun hext region' q' ht' hq' h => by
      obtain ⟨-, rfl⟩ : region' = region ∧ q' = q := by simpa using ht'.symm.trans ht
      exact ⟨hext, hp.sound.extends hext, hext.alike.valid hp.valid, hq'.sound, hq'.valid, h⟩
  simp only [List.mem_cons, List.not_mem_nil, or_false] at hrule
  rcases hrule with rfl | rfl | rfl
  · obtain ⟨_, _, u, w, f, l, g, ht', hq', hext, h⟩ :=
      splitFilter_applies hp hm (.refl hready.coherent) hc
    exact hmoved hext ht' hq'.canMerge (.split h)
  · obtain ⟨_, _, u, w, f, l, g, ht', hq', hext, h⟩ :=
      mergeFilter_applies hp.canMerge hm (.refl hready.coherent) hc
    exact hmoved hext ht' hq' (.merge h)
  · obtain ⟨hext, ⟨_, _, input, F, G, path, f, f', ht', hq', -, h, -⟩ | ⟨e, q', ht', -⟩⟩ :=
      filterAboveForEach_applies hp.canMerge hm (.refl hready.coherent) hc
    · exact hmoved hext ht' hq' (.move h)
    · rw [ht] at ht'
      simp at ht'

/-- One application of a rule for filters keeps the types of stored columns, and as long as it keeps
the names under which joins and products see their inputs, all schemas can still be derived and
stored columns keep their names, too. -/
theorem Rule.keeps_schemas
    (hrule : rule ∈ [Rule.splitFilter, Rule.mergeFilter, Rule.filterAboveForEach])
    (hp : p.Sound) (hvalid : p.validate = .ok ()) (hresolve : resolveSchemas p = .ok () p')
    (hroom : p.HasRoom) (hm : rule.Matches p m) (hc : rule.check m p = .ok true r)
    (ht : rule.transform m r = .ok region q) :
    (∀ q', resolveSchemas q = .ok () q' → StoredAlike Schema.blank p' q') ∧
      (NamesKept p q → ∃ q', resolveSchemas q = .ok () q' ∧ StoredAlike Schema.outline p' q') := by
  have hv := (validate_eq_ok hp.wellFormed hp.formulas).mp hvalid
  obtain ⟨hext, hr, hvr, hq, hvq, h⟩ := Rule.rewrites hrule (hroom.canSplit hp hv) hm hc ht
  have hp' := resolveSchemas_spec (hp.ready hv)
  rw [hresolve] at hp'
  obtain ⟨hpp', hknown⟩ := hp'
  have hready' := (hp.ready hv).extends hpp'
  have hqready := hq.ready hvq
  obtain ⟨d, hd⟩ := exists_solves {} hr.wellFormed hvr.acyclic
  obtain ⟨d', hsim⟩ := h.simulates_empty hr hvr hq hvq hd
  have hdp : Solves {} p' d := (hd.alike hext.alike.symm).alike hpp'.alike
  -- stores stay, so that both plans have derived schemas for them
  have hstores : ∀ {q'}, resolveSchemas q = .ok () q' → Extends q q' ∧
      ∀ z, p'.HasType z .store → r.HasType z .store ∧
        ∃ s t, p'.memoOf z = some s ∧ q'.memoOf z = some t := fun {q'} hq' => by
    have hspec := resolveSchemas_spec hqready
    rw [hq'] at hspec
    refine ⟨hspec.1, fun z hz => ?_⟩
    have hzp := hpp'.alike.hasType hz
    have hzr := hext.alike.symm.hasType hzp
    obtain ⟨s, hs⟩ := Option.isSome_iff_exists.mp (hknown z hzp.contains)
    obtain ⟨t, ht⟩ := Option.isSome_iff_exists.mp
      (hspec.2 z ((hsim.kept z .store (by simp)).1.mp hzr).contains)
    exact ⟨hzr, s, t, hs, ht⟩
  refine ⟨fun q' hq' z hz => ?_, fun hn => ?_⟩
  · obtain ⟨hqq', hall⟩ := hstores hq'
    obtain ⟨hzr, s, t, hs, ht⟩ := hall z hz
    have hready := hqready.extends hqq'
    refine ⟨s, t, hs, ht, ?_⟩
    rw [← ((hsim.solves.alike hqq'.alike).layout_of_memo hready.wellFormed hready.acyclic
        hready.coherent ht).1, hsim.stored hzr,
      (hdp.layout_of_memo hready'.wellFormed hready'.acyclic hready'.coherent hs).1]
  · obtain ⟨o, ho⟩ := exists_outlined (hp.ready hv) ⟨p', hresolve⟩
    obtain ⟨o', ho', hsame⟩ :=
      h.outlined hr hvr hq hvq (hn.alike hext.alike) (ho.alike hext.alike)
    obtain ⟨q', hq'⟩ := ho'.resolve hqready
    refine ⟨q', hq', fun z hz => ?_⟩
    obtain ⟨hqq', hall⟩ := hstores hq'
    obtain ⟨hzr, s, t, hs, ht⟩ := hall z hz
    refine ⟨s, t, hs, ht, ?_⟩
    rw [(ho'.alike hqq'.alike).memo (hqready.extends hqq') ht, hsame z hzr,
      (ho.alike hpp'.alike).memo hready' hs]

/-! ## A name that is lost -/

namespace Plan

/-- The names of the columns that an operator is known to have. -/
def columnNames (p : Plan) (id : NodeId) : List (Option String) :=
  ((p.memoOf id).join.getD []).map Field.name

theorem StoredAlike.columnNames (h : StoredAlike Schema.outline p q) (hz : p.HasType z .store) :
    q.columnNames z = p.columnNames z := by
  have hnames : ∀ s : Schema, (Schema.outline s).map Field.name = s.map Field.name := fun s => by
    rw [Schema.outline_eq_map, List.map_map]
    exact List.map_congr_left fun f _ => f.name_outline
  obtain ⟨s, t, hs, ht, hst⟩ := h z hz
  unfold Plan.columnNames
  rw [hs, ht]
  cases s <;> cases t <;> simp at hst ⊢
  rw [← hnames, hst, hnames]

/-- The conjunction of true and true. -/
def bothTrue : Formula :=
  ((Formula.constant (.boolean true)).conjunction (.constant (.boolean true))).toOption.getD default

/-- Adds a product of a load with itself, on both sides behind a filter, the second one by a
conjunction. -/
def crossed : Edit NodeId := do
  let columns : Schema := [{ name := some "x", type := .int }]
  let load ← append
    { name := some "A", operation := .load { location := "/in", declared := some columns } } []
  let left ← append { name := some "L", operation := .filter (.constant (.boolean true)) } [load]
  let right ← append { name := some "B", operation := .filter bothTrue } [load]
  append { name := some "X", operation := .cross } [left, right]

/-- The product is stored. -/
def crossedPlan : AdmittedPlan :=
  .make (do append { operation := .store "/out" } [← crossed]) (by decide +kernel)

theorem crossedPlan_store : crossedPlan.plan.HasType ⟨4⟩ .store := by
  have h : (crossedPlan.plan.operator? ⟨4⟩).map Operator.type = some .store := by decide +kernel
  exact Option.map_eq_some_iff.mp h

end Plan

/-- Splitting the second filter takes the name of the rows that go into the product, so that a
stored column loses the name of its input; its type stays. -/
theorem splitFilter_crossedPlan : ∃ p' r region q q', resolveSchemas crossedPlan.plan = .ok () p' ∧
    Rule.splitFilter.Matches crossedPlan.plan ⟨[⟨2⟩]⟩ ∧
    Rule.splitFilter.check ⟨[⟨2⟩]⟩ crossedPlan.plan = .ok true r ∧
    Rule.splitFilter.transform ⟨[⟨2⟩]⟩ r = .ok region q ∧ resolveSchemas q = .ok () q' ∧
    p'.columnNames ⟨4⟩ = [some "L::x", some "B::x"] ∧
    q'.columnNames ⟨4⟩ = [some "L::x", some "x"] := by
  have hcheck := Pass.eq_ok_after (x := Rule.splitFilter.check ⟨[⟨2⟩]⟩) (s := crossedPlan.plan)
    (a := true) (by decide +kernel)
  have hsplit := Pass.eq_ok_after (x := Rule.splitFilter.transform ⟨[⟨2⟩]⟩)
    (s := Pass.after (Rule.splitFilter.check ⟨[⟨2⟩]⟩) crossedPlan.plan)
    (a := .ofList [⟨2⟩, ⟨5⟩, ⟨3⟩]) (by decide +kernel)
  refine ⟨_, _, _, _, _, Pass.eq_ok_after ?_, Rule.matches_of_bind (b := ⟨2⟩) ?_, hcheck, hsplit,
    Pass.eq_ok_after ?_, ?_, ?_⟩ <;> decide +kernel

namespace Plan

theorem namesKept_of_toList (hp : p.graph.WellFormed) (h : ∀ x ∈ p.toList,
    x.2.type = .join ∨ x.2.type = .cross →
      (q.dataInputs x.1).map q.nameOf = (p.dataInputs x.1).map p.nameOf) : NamesKept p q := by
  rintro z (⟨op, hop, ht⟩ | ⟨op, hop, ht⟩)
  · exact h (z, op) (hp.mem_toList_iff.mpr hop) (.inl ht)
  · exact h (z, op) (hp.mem_toList_iff.mpr hop) (.inr ht)

/-- A product of a load with itself, on one side behind two filters, of which the lower one is
named. -/
def crossedTwice : AdmittedPlan := .make (do
  let columns : Schema := [{ name := some "x", type := .int }]
  let load ← append
    { name := some "A", operation := .load { location := "/in", declared := some columns } } []
  let kept : Operation := .filter (.constant (.boolean true))
  let left ← append { name := some "L", operation := kept } [load]
  let right ← append { name := some "B", operation := kept } [← append { operation := kept } [load]]
  append { operation := .store "/out" } [← append { operation := .cross } [left, right]])
    (by decide +kernel)

end Plan

/-- The types of the stored columns are kept when the filter of a product is split, and so are their
names when the two filters of a product are merged, since the one that is left takes the name. -/
theorem crossedPlans_stored :
    (∃ p' region q q', resolveSchemas crossedPlan.plan = .ok () p' ∧
      Rule.splitFilter.transform ⟨[⟨2⟩]⟩ crossedPlan.plan = .ok region q ∧
      resolveSchemas q = .ok () q' ∧ StoredAlike Schema.blank p' q') ∧
    ∃ p' r region q q', resolveSchemas crossedTwice.plan = .ok () p' ∧
      Rule.mergeFilter.check ⟨[⟨2⟩, ⟨3⟩]⟩ crossedTwice.plan = .ok true r ∧
      Rule.mergeFilter.transform ⟨[⟨2⟩, ⟨3⟩]⟩ r = .ok region q ∧ NamesKept crossedTwice.plan q ∧
      resolveSchemas q = .ok () q' ∧ StoredAlike Schema.outline p' q' := by
  constructor
  · obtain ⟨p', r, region, q, q', hp', hm, hc, ht, hq', -, -⟩ := splitFilter_crossedPlan
    have hr : r = crossedPlan.plan := by
      obtain ⟨u, name, f, hm', hu⟩ := Rule.splitFilter_matches hm
      rw [Rule.splitFilter_check hm' hu] at hc
      simp only [EStateM.Result.ok.injEq] at hc
      exact hc.2.symm
    exact ⟨p', region, q, q', hp', hr ▸ ht, hq', (Rule.keeps_schemas (by simp) crossedPlan.sound
      crossedPlan.valid hp' crossedPlan.hasRoom hm hc ht).1 q' hq'⟩
  · have hp' := Pass.eq_ok_after (x := resolveSchemas) (s := crossedTwice.plan) (a := ())
      (by decide +kernel)
    have hm : Rule.mergeFilter.Matches crossedTwice.plan ⟨[⟨2⟩, ⟨3⟩]⟩ :=
      Rule.matches_of_bind (b := ⟨2⟩) (by decide +kernel)
    have hc := Pass.eq_ok_after (x := Rule.mergeFilter.check ⟨[⟨2⟩, ⟨3⟩]⟩) (s := crossedTwice.plan)
      (a := true) (by decide +kernel)
    have ht := Pass.eq_ok_after (x := Rule.mergeFilter.transform ⟨[⟨2⟩, ⟨3⟩]⟩)
      (s := Pass.after (Rule.mergeFilter.check ⟨[⟨2⟩, ⟨3⟩]⟩) crossedTwice.plan)
      (a := .ofList [⟨2⟩, ⟨4⟩]) (by decide +kernel)
    have hnames := namesKept_of_toList crossedTwice.sound.wellFormed (q := Pass.after
      (Rule.mergeFilter.transform ⟨[⟨2⟩, ⟨3⟩]⟩) (Pass.after
        (Rule.mergeFilter.check ⟨[⟨2⟩, ⟨3⟩]⟩) crossedTwice.plan)) (by decide +kernel)
    obtain ⟨q', hq', halike⟩ := (Rule.keeps_schemas (by simp) crossedTwice.sound crossedTwice.valid
      hp' crossedTwice.hasRoom hm hc ht).2 hnames
    exact ⟨_, _, _, _, q', hp', hc, ht, hnames, hq', halike⟩

/-- Applying a rule to a match that passed its check may change the names of stored columns. -/
theorem not_keeps_names : ¬∀ (rule : Rule) (p p' r q : Plan) (m : Match) (region : Region),
    rule ∈ [Rule.splitFilter, Rule.mergeFilter, Rule.filterAboveForEach] → p.Sound →
    p.validate = .ok () → resolveSchemas p = .ok () p' → p.HasRoom → rule.Matches p m →
    rule.check m p = .ok true r → rule.transform m r = .ok region q →
    ∃ q', resolveSchemas q = .ok () q' ∧ StoredAlike Schema.outline p' q' := by
  intro h
  obtain ⟨p', r, region, q, q', hp', hm, hc, ht, hq', hnames, hnames'⟩ := splitFilter_crossedPlan
  obtain ⟨q'', hq'', halike⟩ := h _ _ _ _ _ _ _ (by simp) crossedPlan.sound
    crossedPlan.valid hp' crossedPlan.hasRoom hm hc ht
  obtain rfl : q' = q'' := by simpa using hq'.symm.trans hq''
  have hsound := crossedPlan.sound
  have hspec := resolveSchemas_spec (hsound.ready
    ((validate_eq_ok hsound.wellFormed hsound.formulas).mp crossedPlan.valid))
  rw [hp'] at hspec
  have hsame := halike.columnNames (hspec.1.alike.symm.hasType crossedPlan_store)
  rw [hnames, hnames'] at hsame
  exact absurd hsame (by decide)

end Dataflow

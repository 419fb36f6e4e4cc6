import Dataflow.Proofs.Engine.Stages
import Dataflow.Proofs.Plan.MapKeys
import Dataflow.Proofs.Rewrite.Default
import Dataflow.Proofs.Rewrite.Meaning

/-!
# Reached plans

What holds of single rewritings holds of all plans that the default rules reach: splitting and
merging keep the meaning, and so does moving filters up as long as each `ForEach` that is passed
copies the columns that the filter reads (`CopiesColumns`). The layouts of outputs are kept in any
case; for them a storage without records is enough, from which no rows come.
-/

namespace Dataflow

section

open Dataflow.Graph Plan Formula

variable {p q r : Plan} {s : Storage} {d d' : NodeId → Meaning} {F G input z : NodeId}
  {f f' : Formula} {name : Option String}

namespace Plan

theorem Simulates.alike (h : Simulates s p d q d') (hr : Alike q r) : Simulates s p d r d' where
  solves := h.solves.alike hr
  kept z t ht := ⟨(h.kept z t ht).1.trans ⟨hr.symm.hasType, hr.hasType⟩, fun hz => by
    rw [hr.core?]
    exact (h.kept z t ht).2 hz⟩
  means := h.means
  passed := h.passed
  inRange hp z op hop := by
    rw [hr.core?] at hop
    rw [hr.dataInputs]
    exact h.inRange hp z op hop
  succeeds z t ht hz hs := (SucceedsAt.alike hr).mpr (h.succeeds z t ht hz hs)
  feeds x z t hx ht hz hf := h.feeds x z t hx ht hz ((Feeds.alike_iff hr).mp hf)

/-- The `ForEach` copies the columns that the formula reads to the places from which it reads them:
what a generated row has there is what the input's row has at the place in front. -/
def Copies (p : Plan) (d : NodeId → Meaning) (input F : NodeId) (f : Formula) : Prop :=
  ∀ r s o, Extends p r → r.memoOf input = some (some s) → r.memoOf F = some (some o) →
    ∀ c ∈ f.columns, ∀ k, Rule.placeAbove s o c.2 = .ok k →
      ∀ name items, p.core? F = some { name, operation := .forEach items } →
        ∀ row ∈ (d input).rows, ∀ out ∈ Relation.generated items row,
          cell [out] c.1 c.2 = cell [row] c.1 k

/-- Each filter that can be moved in front of a `ForEach` reads columns that are copied. -/
def CopiesColumns (s : Storage) (p : Plan) : Prop :=
  ∀ d, Solves s p d → ∀ input F G name f, Rule.eligibleFilter F p = .ok (some (input, G)) p →
    p.IsFilter G name f → Copies p d input F f

theorem Copies.carries (h : Copies p d input F f) (hover : MovedOver p input F f f')
    (hf : f.Sound) (hv : f.Valid) : Carries p d input F f f' := by
  obtain ⟨r, t, o, hr, ht, ho, hmoved⟩ := hover
  intro name items hitems row hrow out hout
  unfold Relation.keeps holds
  have hcells : ∀ i c k, (i, c) ∈ f.columns → Rule.placeAbove t o c = .ok k →
      cell [row] i k = cell [out] i c := fun i c k hc hk =>
    (h r t o hr ht ho (i, c) hc k hk name items hitems row hrow out hout).symm
  rw [← hmoved.value hf hv hcells]

/-! ## Rule by rule -/

theorem Simulates.split (hp : p.CanSplit) (hd : Solves s p d)
    (h : Reaches [Rule.splitFilter] p q) : q.CanSplit ∧ ∃ d', Simulates s p d q d' := by
  induction h with
  | refl => exact ⟨hp, d, .refl hd⟩
  | ask _ hext ih =>
    obtain ⟨hfit, d', hsim⟩ := ih
    exact ⟨fitness_canSplit.asked _ _ hfit hext, d', hsim.alike hext.alike⟩
  | apply _ hrule hm hext hc ht ih =>
    obtain ⟨hfit, d', hsim⟩ := ih
    obtain rfl := List.mem_singleton.mp hrule
    obtain ⟨region, r', u, w, f, l, g, hrun, hfit', hq, hcascade⟩ :=
      Rule.splitFilter_applies hfit hm hext hc
    obtain ⟨-, rfl⟩ := EStateM.Result.ok.inj (hrun.symm.trans ht)
    have hsim := hsim.alike hq.alike
    have hfitq := fitness_canSplit.asked _ _ hfit hq
    exact ⟨hfit', _, hsim.trans (hcascade.simulates hfitq.sound hfitq.valid hsim.solves)⟩

theorem Simulates.merge (hp : p.CanMerge) (hd : Solves s p d)
    (h : Reaches [Rule.mergeFilter] p q) : q.CanMerge ∧ ∃ d', Simulates s p d q d' := by
  induction h with
  | refl => exact ⟨hp, d, .refl hd⟩
  | ask _ hext ih =>
    obtain ⟨hfit, d', hsim⟩ := ih
    exact ⟨fitness_canMerge.asked _ _ hfit hext, d', hsim.alike hext.alike⟩
  | apply _ hrule hm hext hc ht ih =>
    obtain ⟨hfit, d', hsim⟩ := ih
    obtain rfl := List.mem_singleton.mp hrule
    obtain ⟨region, r', u, w, c, f, g, hrun, hfit', hq, hcascade⟩ :=
      Rule.mergeFilter_applies hfit hm hext hc
    obtain ⟨-, rfl⟩ := EStateM.Result.ok.inj (hrun.symm.trans ht)
    have hsim := hsim.alike hq.alike
    have hfitq := fitness_canMerge.asked _ _ hfit hq
    obtain ⟨d'', hback⟩ := hcascade.simulates_back hfit'.sound hfit'.valid hfitq.sound
      hfitq.valid hsim.solves
    exact ⟨hfit', d'', hsim.trans hback⟩

theorem Simulates.move (hp : p.CanMerge) (hd : Solves s p d)
    (h : Reaches [Rule.filterAboveForEach] p q)
    (hcopies : ∀ r, Reaches [Rule.filterAboveForEach] p r → r.CopiesColumns s) :
    q.CanMerge ∧ ∃ d', Simulates s p d q d' := by
  induction h with
  | refl => exact ⟨hp, d, .refl hd⟩
  | ask _ hext ih =>
    obtain ⟨hfit, d', hsim⟩ := ih
    exact ⟨fitness_canMerge.asked _ _ hfit hext, d', hsim.alike hext.alike⟩
  | apply hreach hrule hm hext hc ht ih =>
    obtain ⟨hfit, d', hsim⟩ := ih
    obtain rfl := List.mem_singleton.mp hrule
    obtain ⟨hq, ⟨region, r', input, F, G, path, f, f', hrun, hfit', hfound, hpushes, hover⟩ |
      ⟨e, r', hrun, -⟩⟩ := Rule.filterAboveForEach_applies hfit hm hext hc
    · obtain ⟨-, rfl⟩ := EStateM.Result.ok.inj (hrun.symm.trans ht)
      have hsim := hsim.alike hq.alike
      have hfitq := fitness_canMerge.asked _ _ hfit hq
      obtain ⟨name, hG⟩ := hpushes.before
      obtain ⟨hfs, hfv, -⟩ := hG.predicate hfitq.sound hfitq.valid
      have hcopy := hcopies _ (hreach.ask hq) _ hsim.solves input F G name f hfound hG
      exact ⟨hfit', _, hsim.trans (hpushes.simulates hfitq.sound hfitq.valid hsim.solves
        (hcopy.carries hover hfs hfv))⟩
    · rw [hrun] at ht
      simp at ht

end Plan

/-! ## A storage without records -/

namespace Operation

theorem load_empty (l : Load) (made : Relation) : Engine.load l {} ≠ .ok made := by
  intro h
  unfold Engine.load at h
  obtain ⟨handle, -, h⟩ := Pass.except_bind_eq_ok.mp h
  have hread : ∀ made, handle.read ({} : Storage) ≠ .ok made := fun made h => by
    obtain ⟨location, -, h⟩ := Pass.except_bind_eq_ok.mp h
    simp [Storage.get?] at h
  cases hd : l.declared with
  | none =>
    simp only [hd] at h
    obtain ⟨made, hmade, -⟩ := Pass.except_bind_eq_ok.mp h
    exact hread made hmade
  | some schema =>
    simp only [hd] at h
    obtain ⟨_, -, h⟩ := Pass.except_bind_eq_ok.mp h
    obtain ⟨made, hmade, -⟩ := Pass.except_bind_eq_ok.mp h
    exact hread made hmade

/-- Rows without keys have none with keys. -/
theorem allWithKeys_nil {keys : List (List Formula)} {n : Nat} {keyed : List (List Relation.Keyed)}
    (h : Relation.allWithKeys keys (List.replicate n []) = .ok keyed) :
    ∀ rel ∈ keyed, rel = [] := by
  have hlist : ∀ (arity : Nat) (l : List ((List Formula × Relation) × Nat))
      (keyed : List (List Relation.Keyed)), (∀ x ∈ l, x.1.2 = []) →
      (l.mapM fun x => Relation.withKeys x.1.1 x.2 arity x.1.2) = .ok keyed →
      ∀ rel ∈ keyed, rel = [] := fun arity l => by
    induction l with
    | nil =>
      intro keyed _ hk
      obtain rfl : [] = keyed := by simpa using hk
      simp
    | cons x l ih =>
      intro keyed hl hk
      obtain ⟨hx, hl⟩ := List.forall_mem_cons.mp hl
      rw [List.mapM_cons, hx] at hk
      obtain ⟨first, hfirst, hk⟩ := Pass.except_bind_eq_ok.mp hk
      obtain ⟨rest, hrest, hk⟩ := Pass.except_bind_eq_ok.mp hk
      obtain rfl : first :: rest = keyed := by simpa using hk
      exact List.forall_mem_cons.mpr ⟨(Except.ok.inj hfirst).symm, ih rest hl hrest⟩
  refine hlist _ _ keyed (fun x hx => ?_) h
  have hmem := List.fst_mem_of_mem_zipIdx hx
  exact List.eq_of_mem_replicate (List.of_mem_zip hmem).2

/-- Joining inputs without rows gives none. -/
theorem join_replicate_nil {t : JoinType} {keys : List (List Formula)} {n : Nat}
    {widths : List (Option Nat)} {made : Relation}
    (h : Relation.join t keys (List.replicate n []) widths = .ok made) : made = [] := by
  unfold Relation.join at h
  split at h
  · simp at h
  obtain ⟨keyed, hk, h⟩ := Pass.except_bind_eq_ok.mp h
  have hnil := allWithKeys_nil hk
  have hinner : Relation.innerJoin keyed = [] := by
    cases keyed with
    | nil => rfl
    | cons first rest =>
      rw [Relation.innerJoin, hnil first (by simp), Lists.foldl_flatMap_nil, List.map_nil]
  have houter : ∀ keepLeft keepRight left right leftWidth rightWidth, left ∈ keyed →
      right ∈ keyed → Relation.outerJoin keepLeft keepRight left right leftWidth rightWidth = [] :=
    fun keepLeft keepRight left right leftWidth rightWidth hl hr => by
      rw [hnil left hl, hnil right hr]
      cases keepRight <;> rfl
  split at h
  · exact (Except.ok.inj h).symm.trans hinner
  · exact (Except.ok.inj h).symm.trans (houter _ _ _ _ _ _ (by simp) (by simp))
  · simp at h

/-- From inputs without rows come no rows, if there is an input. -/
theorem rows_eq_nil {o : Operation} {ms : List Meaning} (hone : o.type ≠ .load → ms ≠ [])
    (hms : ∀ m ∈ ms, m.rows = []) : o.rows {} ms = [] := by
  have hfirst : inputRows ms = [] := by
    cases ms with
    | nil => rfl
    | cons m ms => exact hms m (by simp)
  have hall : ms.map Meaning.rows = List.replicate ms.length [] := List.eq_replicate_iff.mpr
    ⟨by simp, fun rows hrows => by
      obtain ⟨m, hm, rfl⟩ := List.mem_map.mp hrows
      exact hms m hm⟩
  cases o with
  | load l =>
    simp only [rows]
    cases h : Engine.load l {} with
    | error e => rfl
    | ok made => exact absurd h (load_empty l made)
  | join t keys =>
    simp only [rows, hall]
    cases h : Relation.join t keys (List.replicate ms.length []) (ms.map Meaning.width?) with
    | error e => rfl
    | ok made => exact join_replicate_nil h
  | cross =>
    simp only [rows, hall]
    cases ms with
    | nil => exact absurd rfl (hone (by simp [Operation.type]))
    | cons m ms => exact Lists.foldl_flatMap_nil (fun (rel : Relation) l => rel.map (l ++ ·)) _
  | union chosen => simp [rows, hall]
  | sort keys =>
    simp only [rows, hfirst]
    rfl
  | distinct =>
    simp only [rows, hfirst]
    rfl
  | _ => simp [rows, hfirst]

end Operation

namespace Plan

/-- Where there are no records, no operator has rows. -/
theorem Solves.rows_eq_nil (hd : Solves {} p d) (hwf : p.graph.WellFormed) (hv : p.Valid) :
    ∀ z, p.graph.contains z = true → (d z).rows = [] := by
  obtain ⟨rank, hrank⟩ := hv.acyclic
  intro z
  induction h : rank z using Nat.strongRecOn generalizing z with
  | _ n ih =>
    intro hz
    obtain ⟨op, hop⟩ := exists_operator? hz
    rw [hd.operator hop]
    refine Operation.rows_eq_nil (fun hload => ?_) fun m hm => ?_
    · simpa using hv.dataInputs_ne_nil hop hload
    · obtain ⟨x, hx, rfl⟩ := List.mem_map.mp hm
      exact ih (rank x) (h ▸ rank_of_mem_dataInputs hwf hrank hx) x rfl
        (contains_of_mem_dataInputs hwf hx)

theorem copiesColumns_empty (hp : p.Sound) (hv : p.Valid) : p.CopiesColumns {} := by
  intro d hd input F G name f hfound hG r s o hr hs ho c hc k hk nameF items hF row hrow
  have hsome : (p.operator? input).isSome := by
    obtain ⟨op, hop, -⟩ := Option.bind_eq_some_iff.mp hs
    obtain ⟨op', hop', -⟩ := hr.alike.operator? hop
    simp [hop']
  obtain ⟨op, hop⟩ := Option.isSome_iff_exists.mp hsome
  rw [hd.rows_eq_nil hp.wellFormed hv input (contains_of_operator? hop)] at hrow
  simp at hrow

/-- Splitting and then moving keep the meaning. -/
theorem Simulates.moved {p₁ p₂ : Plan} (hp : p.CanSplit) (hd : Solves s p d)
    (h₁ : Reaches [Rule.splitFilter] p p₁) (h₂ : Reaches [Rule.filterAboveForEach] p₁ p₂)
    (hcopies : ∀ r, Reaches [Rule.filterAboveForEach] p₁ r → r.CopiesColumns s) :
    p₂.CanMerge ∧ ∃ d', Simulates s p d p₂ d' := by
  obtain ⟨hfit₁, d₁, hsim₁⟩ := Simulates.split hp hd h₁
  obtain ⟨hfit₂, d₂, hsim₂⟩ := Simulates.move hfit₁.canMerge hsim₁.solves h₂ hcopies
  exact ⟨hfit₂, d₂, hsim₁.trans hsim₂⟩

/-- On a storage without records nothing more is needed. -/
theorem Simulates.moved_empty {p₁ p₂ : Plan} (hp : p.CanSplit) (hd : Solves {} p d)
    (h₁ : Reaches [Rule.splitFilter] p p₁) (h₂ : Reaches [Rule.filterAboveForEach] p₁ p₂) :
    p₂.CanMerge ∧ ∃ d', Simulates {} p d p₂ d' := by
  obtain ⟨hfit₁, -⟩ := Simulates.split hp hd h₁
  have hfits : ∀ r, Reaches [Rule.filterAboveForEach] p₁ r → r.CanMerge := fun r hr =>
    hr.fit fitness_canMerge (by simpa using Rule.filterAboveForEach_behaves) hfit₁.canMerge
  exact Simulates.moved hp hd h₁ h₂ fun r hr =>
    copiesColumns_empty (hfits r hr).sound (hfits r hr).valid

end Plan

end

/-!
## Which plans the optimizer accepts

On a plan whose schemas can be derived, no rule asks for a column that is not there, and no schema
asks for one. What is left to go wrong is that a column name comes to stand for two columns, since a
filter that is split or moved does not pass its name on, and that a filter is to be moved in front
of a `ForEach` whose schema is not known. Where neither happens on the way, the optimizer ends with
a plan.
-/

section

open Dataflow.Graph Plan Engine

variable {p q r p₁ p₂ : Plan} {e : Error} {d : NodeId → Meaning} {config : Config}

namespace Plan

/-- The schema of an operator cannot be derived, because a name would stand for two columns. -/
def Duplicates (p : Plan) (e : Error) : Prop :=
  Stuck p e ∧ ∃ z op n, p.core? z = some op ∧ e = .duplicateColumn n op.describe

/-- There is a filter to be moved in front of a `ForEach` whose schema is not known. -/
def LacksSchema (p : Plan) : Prop :=
  ∃ F found, p.HasType F .forEach ∧ Rule.eligibleFilter F p = .ok (some found) p ∧ Unknown p F

/-- The columns of a plan are in range on a storage without records. -/
theorem exists_inRange_of_resolved (hp : p.Sound) (hv : p.Valid)
    (hresolve : ∃ p', resolveSchemas p = .ok () p') : ∃ d, Solves {} p d ∧ p.InRange d := by
  obtain ⟨P, hP⟩ := (exists_ofPlan_iff hp).mpr ⟨hv, hresolve⟩
  have hprep := ofPlan_eq_ok hp hP
  have hext := hprep.derived
  obtain ⟨d, hd⟩ := exists_solves {} hp.wellFormed hv.acyclic
  have hs := hp.extends hext
  have hin := (hd.alike hext.alike).inRange hs.wellFormed (hext.alike.acyclic hv.acyclic)
    hs.coherent fun z hz => hprep.known z (by rwa [← hext.alike.contains])
  refine ⟨d, hd, fun z op hop => ?_⟩
  rw [← hext.alike.core?] at hop
  rw [← hext.alike.dataInputs]
  exact hin z op hop

theorem InRange.duplicates (hd : Solves {} p d) (hp : p.Sound) (hv : p.Valid) (hin : p.InRange d)
    (h : Stuck p e) : Duplicates p e :=
  ⟨h, hd.duplicate_of_stuck (hp.ready hv) hin h⟩

end Plan

/-- On a storage without records the rewritten plan simulates the plan in any case. -/
theorem OptimizesTo.simulates_empty (h : OptimizesTo p r) (hp : p.CanSplit) (hd : Solves {} p d) :
    r.CanMerge ∧ ∃ d', Simulates {} p d r d' := by
  obtain ⟨p₁, p₂, h₁, h₂, h₃⟩ := h
  obtain ⟨hfit, d₂, hsim⟩ := Simulates.moved_empty hp hd h₁ h₂
  obtain ⟨hr, d₃, hsim'⟩ := Simulates.merge hfit hsim.solves h₃
  exact ⟨hr, d₃, hsim.trans hsim'⟩

/-- On the plans that rewriting reaches from one whose schemas can be derived, a schema can be
missed only because a name would stand for two columns. -/
theorem OptimizesTo.duplicates (h : OptimizesTo p r) (hp : p.CanSplit)
    (hresolve : ∃ p', resolveSchemas p = .ok () p') (hstuck : Stuck r e) : Duplicates r e := by
  obtain ⟨d, hd, hin⟩ := exists_inRange_of_resolved hp.sound hp.valid hresolve
  obtain ⟨hr, d', hsim⟩ := h.simulates_empty hp hd
  exact (hsim.inRange hin).duplicates hsim.solves hr.sound hr.valid hstuck

namespace Optimizer

/-- What stands in the way of optimizing a plan: on a plan that is reached, a name would stand for
two columns of a schema, or a filter is to be moved in front of a `ForEach` of unknown schema. -/
def Obstructed (config : Config) (p : Plan) (e : Error) : Prop :=
  (config.failurePolicy = .abort ∧ ∃ p₁ r cause, Reaches [Rule.splitFilter] p p₁ ∧
    Reaches [Rule.filterAboveForEach] p₁ r ∧ e = ruleError Rule.filterAboveForEach.name cause ∧
    (Duplicates r cause ∨ cause = .invariant .outputSchemaUnknown ∧ LacksSchema r)) ∨
  (config.pruneMapKeys = true ∧ ∃ r, OptimizesTo p r ∧ Duplicates r e)

/-- A plan whose schemas can be derived is optimized, unless a name comes to stand for two columns
or a filter is to be moved in front of a `ForEach` of unknown schema. -/
theorem optimize_accepts (hp : p.Sound) (hvalid : p.validate = .ok ())
    (hresolve : ∃ p', resolveSchemas p = .ok () p') (hroom : p.HasRoom)
    (hconfig : config.check = .ok ()) :
    (∃ report q, ({ config } : Optimizer).optimize p = .ok report q) ∨
      ∃ e q, ({ config } : Optimizer).optimize p = .error e q ∧ Obstructed config p e := by
  have hv := (validate_eq_ok hp.wellFormed hp.formulas).mp hvalid
  obtain ⟨d, hd, hin⟩ := exists_inRange_of_resolved hp hv hresolve
  have hfit := hroom.canSplit hp hv
  have hspec := optimize_spec hp hv hroom hconfig
  cases hrun : ({ config } : Optimizer).optimize p with
  | ok report q => exact .inl ⟨report, q, rfl⟩
  | error e q =>
    rw [hrun] at hspec
    refine .inr ⟨e, q, rfl, ?_⟩
    rcases hspec with ⟨habort, cause, he, p₁, r, h₁, h₂, -, hfault⟩ |
      ⟨hprune, r, q', hto, hr, hkeys⟩
    · refine .inl ⟨habort, p₁, r, cause, h₁, h₂, he, ?_⟩
      rcases hfault with hstuck | ⟨hcause, hlacks⟩
      · obtain ⟨hr, d', hsim⟩ := Simulates.moved_empty hfit hd h₁ h₂
        exact .inl ((hsim.inRange hin).duplicates hsim.solves hr.sound hr.valid hstuck)
      · exact .inr ⟨hcause, hlacks⟩
    · have hstuck := pruneMapKeys_spec hr.sound hr.valid
      rw [hkeys] at hstuck
      exact .inr ⟨hprune, r, hto, hto.duplicates hfit hresolve hstuck⟩

/-- A plan that spreads bags of unknown columns over rows, all of which a filter keeps. -/
def bagPlan : AdmittedPlan := .make (do
  let load ← append
    { operation := .load
        { location := "/in", declared := some [{ name := some "b", type := .bag }] } }
    []
  let bag : Formula := ⟨(Graph.empty.add (.column 0 0 none)).2⟩
  let rows ← append { operation := .forEach [{ formula := bag, flatten := true }] } [load]
  let kept ← append { operation := .filter (.constant (.boolean true)) } [rows]
  append { operation := .store "/out" } [kept]) (by decide +kernel)

/-- The schemas of the plan can be derived, and yet the optimizer refuses it. -/
theorem bagPlan_refused : (∃ p', resolveSchemas bagPlan.plan = .ok () p') ∧
    ¬∃ report q, ({} : Optimizer).optimize bagPlan.plan = .ok report q := by
  have hruns : (∃ p', resolveSchemas bagPlan.plan = .ok () p') ∧
      ¬∃ q, discard (({} : Optimizer).optimize) bagPlan.plan = .ok () q := by decide +kernel
  refine ⟨hruns.1, ?_⟩
  rintro ⟨report, q, h⟩
  exact hruns.2 ⟨q, Pass.discard_eq_ok.mpr ⟨report, h⟩⟩

/-- The plan that spreads bags of unknown columns is not accepted, for one of these reasons. -/
theorem bagPlan_obstructed : ∃ e q, ({} : Optimizer).optimize bagPlan.plan = .error e q ∧
    Obstructed {} bagPlan.plan e := by
  obtain ⟨hresolve, hrefused⟩ := bagPlan_refused
  exact (optimize_accepts bagPlan.sound bagPlan.valid hresolve bagPlan.hasRoom
    (by decide)).resolve_left hrefused

/-- Being valid and having schemas is not enough for the optimizer. -/
theorem not_accepts_all : ¬∀ (p : Plan) (config : Config), p.Sound → p.validate = .ok () →
    (∃ p', resolveSchemas p = .ok () p') → p.HasRoom → config.check = .ok () →
    ∃ report q, ({ config } : Optimizer).optimize p = .ok report q := by
  intro h
  obtain ⟨hresolve, hrefused⟩ := bagPlan_refused
  exact hrefused (h bagPlan.plan {} bagPlan.sound bagPlan.valid hresolve bagPlan.hasRoom
    (by decide))

end Optimizer

end

end Dataflow

import Dataflow.Proofs.Formula.Value
import Dataflow.Proofs.Plan.Repeats
import Dataflow.Proofs.Rewrite.Search

/-!
# Filters that cannot be moved

When the search behind a `ForEach` finds no filter to be moved in front of it, then each filter that
it can reach reads a column that is not known to be one of the input (`Impassable`). That stays so:
merging two filters gives one that reads what both read and reaches no further
(`Impassable.merged`), and schemas that are derived again have the same identities. So the search
finds nothing later on (`Impassable.not_eligible`).
-/

namespace Dataflow

open Dataflow.Graph Formula

/-! ## Columns out of reach -/

/-- The identity of a column, if the schema is known and has it. -/
def Schema.uidAt? (s : Option Schema) (i : Nat) : Option Uid := (s >>= (·[i]?)).map Field.uid

theorem Schema.uidAt?_unnamed (s : Option Schema) (i : Nat) :
    uidAt? (s.map unnamed) i = uidAt? s i := by
  cases s with
  | none => rfl
  | some s => exact uid_getElem?_unnamed s i

/-- A filter behind columns `o` reads one of which the identity is not known to be available. -/
def Formula.ReadsBeyond (f : Formula) (o : Option Schema) (available : List Uid) : Prop :=
  ∃ c ∈ f.columns, ∀ uid, Schema.uidAt? o c.2 = some uid → uid ∉ available

/-- Names do not matter. -/
theorem Formula.ReadsBeyond.unnamed {f : Formula} {o : Option Schema} {available : List Uid}
    (h : f.ReadsBeyond o available) : f.ReadsBeyond (o.map Schema.unnamed) available := by
  obtain ⟨c, hc, hbeyond⟩ := h
  refine ⟨c, hc, fun uid huid => hbeyond uid ?_⟩
  rwa [Schema.uidAt?_unnamed] at huid

theorem Formula.ReadsBeyond.mono {f g : Formula} {o : Option Schema} {available : List Uid}
    (h : f.ReadsBeyond o available) (hsub : ∀ c ∈ f.columns, c ∈ g.columns) :
    g.ReadsBeyond o available := by
  obtain ⟨c, hc, hbeyond⟩ := h
  exact ⟨c, hsub c hc, hbeyond⟩

namespace Plan

variable {p q r : Plan} {u w x y z id F G input next : NodeId} {f g l : Formula}
  {name : Option String} {o : Option Schema} {available : List Uid} {path : List NodeId}

/-! ## What is asked about one filter -/

/-- Of an operator with a single input the identities of columns are those of the input. -/
theorem columnUid_single {j : Nat} {found : Option Uid} (hq : q.Coherent)
    (hins : q.dataInputs id = [y]) (hrun : columnUid id 0 j q = .ok found r) : Extends q r ∧
      ∃ s, r.memoOf y = some s ∧ found = Schema.uidAt? s j := by
  unfold columnUid at hrun
  rw [Pass.bind_of_ok Pass.get_apply, hins] at hrun
  obtain ⟨s, t, hs, hrun⟩ := Pass.bind_eq_ok.mp hrun
  obtain ⟨hext, hmemo⟩ := schema_eq_ok hq hs
  obtain ⟨rfl, rfl⟩ := EStateM.Result.ok.inj hrun
  exact ⟨hext, s, hmemo, rfl⟩

/-- Where the schema of the only input can be no other than `o`, all identities are found if `o` has
them. -/
theorem columnUids_single (hins : p.dataInputs id = [y])
    (hknown : ∀ r s, Extends p r → r.memoOf y = some s → s = o) :
    ∀ {columns : List (Nat × Nat)} {known : List Uid} {q : Plan} {found : Option (List Uid)},
      Extends p q → (∀ c ∈ columns, c.1 = 0) →
      columnUids id columns known q = .ok found r →
      (∀ c ∈ columns, ∃ uid ∈ available, Schema.uidAt? o c.2 = some uid) →
      (∀ uid ∈ known, uid ∈ available) →
        ∃ uids, found = some uids ∧ ∀ uid ∈ uids, uid ∈ available := by
  intro columns
  induction columns with
  | nil =>
    intro known q found _ _ hrun _ hk
    obtain ⟨rfl, -⟩ := EStateM.Result.ok.inj hrun
    exact ⟨known, rfl, hk⟩
  | cons c columns ih =>
    intro known q found hq hall0 hrun hall hk
    obtain ⟨i, j⟩ := c
    obtain ⟨hi, hzero⟩ := List.forall_mem_cons.mp hall0
    obtain ⟨⟨uid, huid, hat⟩, hrest⟩ := List.forall_mem_cons.mp hall
    obtain rfl : i = 0 := hi
    unfold columnUids at hrun
    obtain ⟨uid?, t, hone, hrun⟩ := Pass.bind_eq_ok.mp hrun
    obtain ⟨hext, s, hs, rfl⟩ :=
      columnUid_single hq.coherent (hq.alike.dataInputs.trans hins) hone
    obtain rfl := hknown t s (hq.trans hext) hs
    rw [hat] at hrun
    refine ih (hq.trans hext) hzero hrun hrest fun v hv => ?_
    rcases mem_insertUid.mp hv with rfl | hv
    · exact huid
    · exact hk v hv

/-- If anything is read, then the schema of the input is asked for. -/
theorem memoOf_of_columnUids {c : Nat × Nat} {columns : List (Nat × Nat)} {known : List Uid}
    {found : Option (List Uid)} (hq : q.Ready) (hins : q.dataInputs id = [y]) (hc : c.1 = 0)
    (hrun : columnUids id (c :: columns) known q = .ok found r) : (r.memoOf y).isSome := by
  obtain ⟨i, j⟩ := c
  obtain rfl : i = 0 := hc
  unfold columnUids at hrun
  obtain ⟨uid?, t, hone, hrun⟩ := Pass.bind_eq_ok.mp hrun
  obtain ⟨hext, s, hs, -⟩ := columnUid_single hq.coherent hins hone
  suffices hrest : Extends t r by rw [hrest.memo y s hs]; rfl
  cases uid? with
  | none =>
    obtain ⟨-, rfl⟩ := EStateM.Result.ok.inj hrun
    exact .refl hext.coherent
  | some uid =>
    exact ((Asks.columnUids (hq.extends hext) t (.refl hext.coherent)).1 _ _ hrun).1

/-! ## A search that finds nothing -/

/-- What a search that finds nothing behind an operator comes to. -/
theorem eq_none_of_onOutput {steps : Nat} (h : p.Ready) (hq : Extends p q)
    (hrun : (match q.graph.successors x with
      | [next] => Rule.firstEligible available steps next
      | _ => Pure.pure none : Edit (Option NodeId)) q = .ok none r) : Extends q r ∧
      ∀ next, p.graph.successors x = [next] →
        Rule.firstEligible available steps next q = .ok none r := by
  have hnext := Asks.onOutput (none : Option NodeId) (x := x) h fun y hy =>
    Asks.firstEligible h available steps (h.wellFormed.target hy)
  refine ⟨((hnext q hq).1 none r ?_).1, fun next hsuc => ?_⟩
  · rw [Pass.bind_of_ok Pass.get_apply]
    exact hrun
  · rw [hq.alike.successors, hsuc] at hrun
    exact hrun

/-- A filter at which the search does not end is not eligible, and the search goes on at its only
output. -/
theorem firstEligible_eq_none {steps : Nat} (h : p.Ready) (hx : p.IsFilter x name f)
    (hq : Extends p q) (hrun : Rule.firstEligible available (steps + 1) x q = .ok none r) :
    ∃ found t, formulaUids x f q = .ok found t ∧ Extends q t ∧ Extends t r ∧
      (∀ uids, found = some uids → ∃ uid ∈ uids, uid ∉ available) ∧
      ∀ next, p.graph.successors x = [next] →
        Rule.firstEligible available steps next t = .ok none r := by
  unfold Rule.firstEligible at hrun
  rw [Pass.bind_of_ok Pass.get_apply,
    Pass.bind_of_ok (ofResult_eq_ok.mpr ⟨hq.typeOf hx.hasType, rfl⟩), if_neg (by simp),
    Pass.bind_of_ok Pass.get_apply,
    Pass.bind_of_ok (ofResult_eq_ok.mpr ⟨hq.filterPredicate hx, rfl⟩)] at hrun
  obtain ⟨found, t, hfound, hrun⟩ := Pass.bind_eq_ok.mp hrun
  have hext := ((Asks.formulaUids h q hq).1 _ _ hfound).1
  have hpt := hq.trans hext
  cases found with
  | none =>
    obtain ⟨hr, hgo⟩ := eq_none_of_onOutput h hpt hrun
    exact ⟨none, t, hfound, hext, hr, by simp, hgo⟩
  | some uids =>
    cases hall : uids.all available.contains with
    | true =>
      simp only [hall, if_true] at hrun
      cases hrun
    | false =>
      simp only [hall, Bool.false_eq_true, if_false] at hrun
      obtain ⟨hr, hgo⟩ := eq_none_of_onOutput h hpt hrun
      refine ⟨some uids, t, hfound, hext, hr, fun uids' h => ?_, hgo⟩
      obtain rfl := Option.some.inj h
      obtain ⟨uid, huid, hnot⟩ := List.all_eq_false.mp hall
      exact ⟨uid, huid, by simpa using hnot⟩

/-- What the search says about one filter. -/
theorem readsBeyond_of_firstEligible {steps : Nat} (hs : p.Sound) (hv : p.Valid)
    (hx : p.IsFilter x name f) (hpre : p.graph.predecessors x = [y]) (hq : Extends p q)
    (hknown : ∀ r s, Extends p r → r.memoOf y = some s → s = o)
    (hrun : Rule.firstEligible available (steps + 1) x q = .ok none r) :
    f.ReadsBeyond o available := by
  obtain ⟨found, t, hfound, -, -, hnot, -⟩ := firstEligible_eq_none (hs.ready hv) hx hq hrun
  obtain ⟨-, -, hcols, -⟩ := hx.predicate hs hv
  have hins : p.dataInputs x = [y] := hx.dataInputs.trans hpre
  by_contra hclose
  have hall : ∀ c ∈ f.columns, ∃ uid ∈ available, Schema.uidAt? o c.2 = some uid := by
    intro c hc
    by_contra hnone
    refine hclose ⟨c, hc, fun uid huid hmem => hnone ⟨uid, hmem, huid⟩⟩
  obtain ⟨uids, rfl, hav⟩ := columnUids_single hins hknown hq
    (fun c hc => Nat.lt_one_iff.mp (hcols c hc)) hfound hall (by simp)
  obtain ⟨uid, huid, hbeyond⟩ := hnot uids rfl
  exact hbeyond (hav uid huid)

/-- A filter that the search reaches is not eligible, whatever lies behind it. The search has steps
enough to come there. -/
theorem LeadsTo.readsBeyond (h : p.LeadsTo G x path) (hs : p.Sound) (hv : p.Valid)
    (hG : p.IsFilter G name f) : ∀ {steps : Nat} {next : NodeId} {q : Plan},
      p.graph.successors x = [next] → path.length ≤ steps → Extends p q →
      (∀ r s, Extends p r → r.memoOf x = some s → s = o) →
      Rule.firstEligible available steps next q = .ok none r → f.ReadsBeyond o available := by
  induction h with
  | @last x hsuc =>
    intro steps next q hnext hlen hq hknown hrun
    obtain rfl : G = next := by simpa [hsuc] using hnext
    obtain ⟨steps, rfl⟩ : ∃ n, steps = n + 1 := ⟨steps - 1, by simp at hlen; omega⟩
    have hpre := hG.predecessors_eq hs hv (x := x) (by simp [hsuc])
    exact readsBeyond_of_firstEligible hs hv hG hpre hq hknown hrun
  | @step x y path hsuc hy hrest ih =>
    intro steps next q hnext hlen hq hknown hrun
    obtain rfl : y = next := by simpa [hsuc] using hnext
    obtain ⟨steps, rfl⟩ : ∃ n, steps = n + 1 := ⟨steps - 1, by simp at hlen; omega⟩
    obtain ⟨name', f', hf'⟩ := hy.isFilter
    obtain ⟨found, t, -, hext, -, -, hgo⟩ := firstEligible_eq_none (hs.ready hv) hf' hq hrun
    obtain ⟨behind, hbehind, -⟩ := hrest.output_of_mem hrest.mem_self
    refine ih hbehind (by simpa using hlen) (hq.trans hext) (fun r s hr hm => ?_)
      (hgo behind hbehind)
    -- a filter has the schema of its input
    refine hknown r s hr (hr.coherent.memoOf_input (hr.alike.isFilter.mpr hf') ?_ hm)
    rw [hr.alike.predecessors, hf'.predecessors_eq hs hv (x := x) (by simp [hsuc])]

/-- No operator is passed twice. -/
theorem LeadsTo.length_le (h : p.LeadsTo G x path) (hs : p.Sound) (hv : p.Valid) :
    path.length ≤ p.size := by
  obtain ⟨rank, hrank⟩ := hv.acyclic
  have hnodup : path.Nodup := by
    induction h with
    | last => simp
    | @step x y path hsuc _ hrest ih =>
      refine List.nodup_cons.mpr ⟨fun hx => ?_, ih⟩
      have h1 := hrank x y (by simp [hsuc])
      have h2 := (hrest.rank_of_mem hrank hx).1
      omega
  have hsub : path ⊆ p.graph.ids := by
    intro z hz
    obtain ⟨y, hy, -⟩ := h.output_of_mem hz
    exact (hs.wellFormed.mem_ids z).mpr (contains_of_mem_successors (y := y) (by simp [hy]))
  rw [Plan.size, hs.wellFormed.size_eq]
  exact (List.subperm_of_subset hnodup hsub).length_le

/-! ## Operators that no filter can pass -/

/-- Going by the schemas derived in `p`, the filter behind the `ForEach` cannot stand in front of
it: the columns of the input are not known, or the filter reads another one. -/
def OutOfReach (p : Plan) (input F : NodeId) (f : Formula) : Prop :=
  p.bareOf input = some none ∨ ∃ s o, p.bareOf input = some (some s) ∧ p.bareOf F = some o ∧
    f.ReadsBeyond o s.uids

/-- No filter of `q` that the search behind the `ForEach` can reach can stand in front of it, going
by the schemas derived in `p`. -/
def Impassable (p q : Plan) (F : NodeId) : Prop :=
  ∀ input G path name f, q.graph.predecessors F = [input] → q.LeadsTo G F path →
    q.IsFilter G name f → p.OutOfReach input F f

theorem OutOfReach.mono (h : p.OutOfReach input F f) (hsub : ∀ c ∈ f.columns, c ∈ g.columns) :
    p.OutOfReach input F g := by
  rcases h with hnone | ⟨s, o, hs, ho, hbeyond⟩
  · exact .inl hnone
  · exact .inr ⟨s, o, hs, ho, hbeyond.mono hsub⟩

theorem OutOfReach.of_input (h : p.OutOfReach y F f)
    (hinput : ∀ t, p.bareOf y = some t → p.bareOf input = some t) : p.OutOfReach input F f := by
  rcases h with hnone | ⟨s, o, hs, ho, hbeyond⟩
  · exact .inl (hinput _ hnone)
  · exact .inr ⟨s, o, hinput _ hs, ho, hbeyond⟩

/-! ### Where the search found nothing -/

theorem LeadsTo.first_filter (h : p.LeadsTo G x path) (hG : p.HasType G .filter)
    (hsuc : p.graph.successors x = [next]) : p.HasType next .filter := by
  cases h with
  | last hx =>
    obtain rfl : G = next := by simpa [hx] using hsuc
    exact hG
  | step hx hy _ =>
    obtain rfl := List.singleton_inj.mp (hx.symm.trans hsuc)
    exact hy

/-- A search that ends at a filter has asked for the schema that the filter gets. -/
theorem memoOf_of_firstEligible {steps : Nat} (hs : p.Sound) (hv : p.Valid)
    (hx : p.IsFilter x name f) (hpre : p.graph.predecessors x = [y]) (hq : Extends p q)
    (hrun : Rule.firstEligible available (steps + 1) x q = .ok none r) : (r.memoOf y).isSome := by
  obtain ⟨found, t, hfound, hqt, htr, hnot, -⟩ := firstEligible_eq_none (hs.ready hv) hx hq hrun
  obtain ⟨-, -, hcols, -⟩ := hx.predicate hs hv
  have hins : q.dataInputs x = [y] := hq.alike.dataInputs.trans (hx.dataInputs.trans hpre)
  unfold formulaUids at hfound
  cases hc : f.columns with
  | nil =>
    -- a filter that reads nothing would have been found
    rw [hc] at hfound
    obtain ⟨rfl, -⟩ := EStateM.Result.ok.inj hfound
    obtain ⟨uid, huid, -⟩ := hnot [] rfl
    cases huid
  | cons c columns =>
    rw [hc] at hfound
    have hzero : c.1 = 0 := Nat.lt_one_iff.mp (hcols c (by simp [hc]))
    exact htr.isSome (memoOf_of_columnUids ((hs.extends hq).ready (hq.alike.valid hv)) hins hzero
      hfound)

/-- Where the search found nothing, no filter that it could reach can pass. -/
theorem outOfReach_of_eligibleFilter (hs : p.Sound) (hv : p.Valid)
    (hrun : Rule.eligibleFilter F p = .ok none p) (hpre : p.graph.predecessors F = [input])
    (hlead : p.LeadsTo G F path) (hG : p.IsFilter G name f) : p.OutOfReach input F f := by
  obtain ⟨first, hsuc, -⟩ := hlead.output_of_mem hlead.mem_self
  unfold Rule.eligibleFilter at hrun
  rw [Pass.bind_of_ok Pass.get_apply, show p.predecessors F = [input] from hpre,
    show p.successors F = [first] from hsuc] at hrun
  obtain ⟨s, q, hschema, hrun⟩ := Pass.bind_eq_ok.mp hrun
  obtain ⟨hq, hinput⟩ := schema_eq_ok hs.coherent hschema
  cases s with
  | none =>
    obtain ⟨-, rfl⟩ := EStateM.Result.ok.inj hrun
    exact .inl (bareOf_eq hinput)
  | some s =>
    obtain ⟨found, r, hfound, hrun⟩ := Pass.bind_eq_ok.mp hrun
    obtain ⟨hnone, rfl⟩ : found = none ∧ r = p := by simpa using hrun
    subst hnone
    have hfirst := hlead.first_filter hG.hasType hsuc
    have hext := ((Asks.firstEligible (hs.ready hv) s.uids r.size hfirst.contains q hq).1 _ _
      hfound).1
    -- that the search came past the first filter, the schema of the `ForEach` is known
    obtain ⟨name₁, f₁, hf₁⟩ := hfirst.isFilter
    have hfirstPre := hf₁.predecessors_eq hs hv (x := F) (by simp [hsuc])
    have hlen := hlead.length_le hs hv
    obtain ⟨steps, hsteps⟩ : ∃ n, r.size = n + 1 :=
      ⟨r.size - 1, by have := List.length_pos_of_mem hlead.mem_self; omega⟩
    obtain ⟨o, ho⟩ := Option.isSome_iff_exists.mp
      (memoOf_of_firstEligible hs hv hf₁ hfirstPre hq (hsteps ▸ hfound))
    have hbeyond : f.ReadsBeyond o s.uids := by
      refine hlead.readsBeyond hs hv hG hsuc hlen hq (fun t u ht hu => ?_) hfound
      exact Option.some.inj (hu.symm.trans (ht.memo F o ho))
    refine .inr ⟨s.unnamed, o.map Schema.unnamed, ?_, bareOf_eq ho, ?_⟩
    · exact bareOf_eq (hext.memo input _ hinput)
    · rw [Schema.uids_unnamed]
      exact hbeyond.unnamed

/-! ### Merged filters -/

theorem eq_singleton_of_mem_iff {l : List NodeId} (hl : l.Nodup) (h : ∀ z, z ∈ l ↔ z = y) :
    l = [y] :=
  List.perm_singleton.mp
    ((List.perm_ext_iff_of_nodup hl (List.nodup_singleton y)).mpr (by simpa using h))

section Merged

variable {c : Formula} (h : Cascade p q u w c f g)

include h

/-- In place of its outputs, the single filter of `p` has the second filter, which has those
outputs. -/
theorem Cascade.mem_successors (hp : p.graph.WellFormed) (hq : q.graph.WellFormed) :
    z ∈ q.graph.successors x ↔
      if x = u then z = w else z ∈ p.graph.successors (if x = w then u else x) := by
  have hne := h.ne
  rw [hq.edge, h.predecessors]
  by_cases hzw : z = w
  · -- the second filter is not in `p`
    have habsent : ∀ y, w ∉ p.graph.successors y := fun y hy => h.ne_of_contains (hp.target hy) rfl
    simp [hzw, habsent]
  · rw [if_neg hzw]
    by_cases hxu : x = u
    · rw [if_pos hxu]
      exact iff_of_false (fun hmem => (mem_of_mem_map_renamed hmem (hxu ▸ hne)).2 hxu) hzw
    rw [if_neg hxu, List.mem_map, hp.edge]
    constructor
    · rintro ⟨y, hy, rfl⟩
      by_cases hyu : y = u
      · rwa [hyu, renamed_self, if_pos rfl, ← hyu]
      · rw [renamed_of_ne hyu, if_neg fun hyw => h.predecessors_absent hp (hyw ▸ hy)]
        exact hy
    · intro hy
      by_cases hxw : x = w
      · rw [if_pos hxw] at hy
        exact ⟨u, hy, by rw [renamed_self, hxw]⟩
      · rw [if_neg hxw] at hy
        exact ⟨x, hy, renamed_of_ne hxu⟩

theorem Cascade.successors_first (hp : p.graph.WellFormed) (hq : q.graph.WellFormed) :
    q.graph.successors u = [w] := by
  refine eq_singleton_of_mem_iff (hq.outs_nodup u) fun z => ?_
  rw [h.mem_successors hp hq, if_pos rfl]

theorem Cascade.successors_of_ne (hp : p.graph.WellFormed) (hq : q.graph.WellFormed) (hxu : x ≠ u)
    (hsuc : p.graph.successors (if x = w then u else x) = [y]) : q.graph.successors x = [y] := by
  refine eq_singleton_of_mem_iff (hq.outs_nodup x) fun z => ?_
  rw [h.mem_successors hp hq, if_neg hxu, hsuc, List.mem_singleton]

theorem Cascade.isFilter_of_ne {k : Formula} (hne : z ≠ u) (hz : p.IsFilter z name k) :
    q.IsFilter z name k :=
  (h.other z hne (h.ne_of_core? hz)).trans hz

theorem Cascade.filter (hz : p.HasType z .filter) : q.HasType z .filter := by
  obtain ⟨name₁, hu⟩ := h.first
  obtain ⟨name, k, hk⟩ := hz.isFilter
  by_cases hzu : z = u
  · exact hzu ▸ hu.hasType
  · exact (h.isFilter_of_ne hzu hk).hasType

/-- A filter that can be reached past the single filter can be reached past both. -/
theorem Cascade.leadsTo (hp : p.graph.WellFormed) (hq : q.graph.WellFormed)
    (hlead : p.LeadsTo G x path) : ∃ path', q.LeadsTo G x path' := by
  obtain ⟨name₂, hw⟩ := h.second
  have hnotw : ∀ {x y}, p.graph.successors x = [y] → x ≠ w := fun {x y} hsuc =>
    h.ne_of_contains (contains_of_mem_successors (y := y) (by simp [hsuc]))
  -- the outputs of the single filter are those of the second one
  have hthrough : ∀ {y}, p.graph.successors u = [y] → q.graph.successors w = [y] := fun hsuc =>
    h.successors_of_ne hp hq h.ne.symm (by rwa [if_pos rfl])
  induction hlead with
  | @last x hsuc =>
    by_cases hxu : x = u
    · subst hxu
      exact ⟨_, .step (h.successors_first hp hq) hw.hasType (.last (hthrough hsuc))⟩
    · exact ⟨_, .last (h.successors_of_ne hp hq hxu (by rwa [if_neg (hnotw hsuc)]))⟩
  | @step x y path hsuc hy _ ih =>
    obtain ⟨path', hpath'⟩ := ih
    by_cases hxu : x = u
    · subst hxu
      exact ⟨_, .step (h.successors_first hp hq) hw.hasType
        (.step (hthrough hsuc) (h.filter hy) hpath')⟩
    · exact ⟨_, .step (h.successors_of_ne hp hq hxu (by rwa [if_neg (hnotw hsuc)])) (h.filter hy)
        hpath'⟩

/-- The second filter had the schema of the first one. -/
theorem Cascade.bareOf_renamed {A : Plan} {t : Option Schema} (hrepeats : Repeats A q)
    (ht : A.bareOf y = some t) : A.bareOf (renamed w u y) = some t := by
  obtain ⟨name₂, hw⟩ := h.second
  by_cases hy : y = w
  · obtain ⟨op, hop, ho, -⟩ := hw.operator?
    rw [hy] at ht ⊢
    rw [renamed_self]
    exact hrepeats.filter hop ho (by rw [h.predecessors, if_pos rfl]) ht
  · rwa [renamed_of_ne hy]

/-- Merging two filters lets no filter pass: the merged one reads what either of them read. -/
theorem Impassable.merged {A : Plan} (hp : p.Sound) (hvp : p.Valid) (hq : q.Sound) (hvq : q.Valid)
    (hrepeats : Repeats A q) (hF : p.HasType F .forEach) (himp : A.Impassable q F) :
    A.Impassable p F := by
  intro input G path name k hpre hlead hG
  obtain ⟨name₀, hu⟩ := h.whole
  obtain ⟨name₁, hu'⟩ := h.first
  obtain ⟨name₂, hw'⟩ := h.second
  obtain ⟨-, hFw⟩ := h.ne_of_not_filter (by simp) hF
  have hpre' : q.graph.predecessors F = [renamed u w input] := by
    rw [h.predecessors_of_ne hFw, hpre, List.map_singleton]
  obtain ⟨path', hlead'⟩ := h.leadsTo hp.wellFormed hq.wellFormed hlead
  have hout : A.OutOfReach (renamed u w input) F k := by
    by_cases hGu : G = u
    · subst hGu
      obtain ⟨rfl, -⟩ := hG.unique hu
      obtain ⟨hls, hlv, -⟩ := hu'.predicate hq hvq
      obtain ⟨hgs, hgv, -⟩ := hw'.predicate hq hvq
      obtain ⟨hks, hkv, -⟩ := hG.predicate hp hvp
      refine (himp _ G path' _ _ hpre' hlead' hu').mono fun col hcol => ?_
      exact (h.conjunction.mem_columns ⟨hks, hkv⟩ ⟨hls, hlv⟩ ⟨hgs, hgv⟩).mpr (.inl hcol)
    · exact himp _ G path' _ _ hpre' hlead' (h.isFilter_of_ne hGu hG)
  refine hout.of_input fun t ht => ?_
  have hback := h.bareOf_renamed hrepeats ht
  rwa [renamed_back fun hin => h.predecessors_absent hp.wellFormed (z := F) (by simp [hpre, hin])]
    at hback

end Merged

/-! ### Asking again -/

theorem SameChecks.hasType {t : OperatorType} (h : SameChecks p q) (hx : p.HasType x t) :
    q.HasType x t := by
  obtain ⟨op, hop, rfl⟩ := hx
  obtain ⟨op', hop', heq⟩ := h.symm.operator? hop
  exact ⟨op', hop', by rw [← Operator.type_checked, heq, Operator.type_checked]⟩

theorem SameChecks.isFilter (h : SameChecks p q) (hx : p.IsFilter x name f) :
    ∃ name, q.IsFilter x name f := by
  obtain ⟨op, hop, ho, -⟩ := hx.operator?
  obtain ⟨op', hop', heq⟩ := h.symm.operator? hop
  have hoperation : op'.operation.checked = .filter f := by
    rw [show op'.operation.checked = op.operation.checked from congrArg Operator.operation heq, ho]
    rfl
  refine ⟨op'.name, isFilter_of_operator? hop' ?_⟩
  cases ho' : op'.operation <;> simp_all [Operation.checked, Operation.withoutUids]

theorem LeadsTo.sameChecks (h : p.LeadsTo G x path) (hq : SameChecks p q) : q.LeadsTo G x path :=
  h.congr hq.successors fun _ => hq.hasType

/-- Noting keys lets no filter pass. -/
theorem Impassable.sameChecks (h : p.Impassable q F) (hr : SameChecks q r) : p.Impassable r F := by
  intro input G path name f hpre hlead hG
  obtain ⟨name', hG'⟩ := hr.symm.isFilter hG
  exact h input G path name' f ((hr.predecessors F).symm.trans hpre) (hlead.sameChecks hr.symm) hG'

/-- If what was derived comes back, then the search behind an operator that no filter can pass finds
none. -/
theorem Impassable.not_eligible {s : Schema} (h : p.Impassable q F) (hs : q.Sound) (hv : q.Valid)
    (hr : Extends q r) (hrepeats : Repeats p r) : ¬Eligible q r input F G path name f s := by
  intro he
  rcases h input G path name f he.source he.leads he.filter with
    hnone | ⟨t, o, ht, ho, c, hc, hbeyond⟩
  · cases hrepeats.memo hnone he.known
  · obtain rfl : s.unnamed = t := Option.some.inj (hrepeats.memo ht he.known)
    obtain ⟨uid, huid, t, field, hmemo, hfield, rfl⟩ := he.exists_column hs hv hr c hc
    refine hbeyond field.uid ?_ (by rwa [Schema.uids_unnamed])
    rw [← hrepeats.memo ho hmemo, Schema.uidAt?_unnamed]
    simp [Schema.uidAt?, hfield]

theorem keeps_onOutput {β : Type} {I : Plan → Prop} (none : β) {k : NodeId → Edit β}
    (hk : ∀ y, Pass.Keeps I (k y)) : Pass.Keeps I (do
      match (← get).successors x with
      | [next] => k next
      | _ => Pure.pure none) := by
  refine .bind .get fun p => ?_
  split
  · exact hk _
  · exact .pure

theorem KeptByDeriving.firstEligible {I : Plan → Prop} (h : KeptByDeriving I) : ∀ (steps : Nat)
    (x : NodeId), Pass.Keeps I (Rule.firstEligible available steps x) := by
  intro steps
  induction steps with
  | zero => exact fun _ => .pure
  | succ steps ih =>
    intro x
    unfold Rule.firstEligible
    refine .bind .get fun p => .bind keeps_ofResult fun t => ?_
    split
    · exact .pure
    · refine .bind .get fun p => .bind keeps_ofResult fun f => .bind h.formulaUids fun found => ?_
      cases found with
      | none => exact keeps_onOutput none ih
      | some uids =>
        dsimp only
        split
        · exact .pure
        · exact keeps_onOutput none ih

theorem KeptByDeriving.eligibleFilter {I : Plan → Prop} (h : KeptByDeriving I) :
    Pass.Keeps I (Rule.eligibleFilter F) := by
  unfold Rule.eligibleFilter
  refine .bind .get fun p => ?_
  split
  · refine .bind h.schema fun s => ?_
    cases s with
    | none => exact .pure
    | some s => exact .bind (h.firstEligible _ _) fun _ => .pure
  · exact .pure

end Plan

end Dataflow

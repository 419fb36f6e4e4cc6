import Dataflow.Proofs.Engine.Pruning
import Dataflow.Proofs.Formula.Value
import Dataflow.Proofs.Plan.Noted

/-!
# Which entries loads are left with

A column that some operator needs as a whole (`NeedsWhole`) must not be loaded in part, and where
the analysis of map keys gives up no column may be. This holds of all that noting the keys puts on
the loads (`entries_of_pruneMapKeys`). But it takes nothing away: what an earlier run has noted
stays, also when the plan has changed since and the column is now needed as a whole
(`not_entries_of_pruneMapKeys`).
-/

namespace Dataflow

open Plan Dataflow.Graph

variable {p q r : Plan} {id x y z : NodeId} {op : Operator} {n n' n₁ N : Needs} {u : Uid} {i : Nat}
  {s : Option Schema} {l before behind : List NodeId} {tables : List (NodeId × KeyTable)}

/-! ## What is needed as a whole -/

/-- A column stands in the formula without being the operand of a lookup. -/
def Formula.ReadsWhole (f : Formula) (input i : Nat) : Prop :=
  ∃ y name, f.graph.content? y = some (.column input i name) ∧
    (f.graph.predecessors y = [] ∨
      ∃ x ∈ f.graph.predecessors y, ∀ key, f.graph.content? x ≠ some (.unary (.lookup key)))

theorem Formula.ReadsWhole.mem_columnUses {f : Formula} {input : Nat} (h : f.ReadsWhole input i)
    (hf : f.Sound) : .whole input i ∈ f.columnUses := by
  obtain ⟨y, name, hy, hnone | ⟨x, hx, hlookup⟩⟩ := h
  · exact (Formula.mem_columnUses hf hy).1 hnone
  · have huse := (Formula.mem_columnUses hf hy).2 x hx
    unfold useBy at huse
    split at huse
    · next key hkey => exact absurd hkey (hlookup key)
    · exact huse

namespace Plan

/-- The schema that the plan gives for an operator when asked. -/
def Shows (p : Plan) (x : NodeId) (s : Schema) : Prop := Pass.result? (schema x) p = some (some s)

/-- The operator needs the column with the identity as a whole: a formula of it reads the column, it
stores or compares whole rows in which the column is, or it is a union that hands the column on to
where it is needed. -/
inductive NeedsWhole (p : Plan) : NodeId → Uid → Prop
  | reads {id x : NodeId} {op : Operator} {f : Formula} {input i : Nat} {s : Schema} {c : Field} :
    p.operator? id = some op → f ∈ op.operation.formulas → f.ReadsWhole input i →
    (p.dataInputs id)[input]? = some x → p.Shows x s → s[i]? = some c → NeedsWhole p id c.uid
  | takes {id x : NodeId} {t : OperatorType} {s : Schema} {u : Uid} : p.HasType id t →
    t = .store ∨ t = .distinct → x ∈ p.dataInputs id → p.Shows x s → u ∈ Schema.allUids s →
    NeedsWhole p id u
  | hands {id z : NodeId} {s : Schema} {c : Field} {u : Uid} : p.HasType id .union → p.Shows id s →
    c ∈ s → u ∈ c.parents → z ∈ p.graph.descendants id → z ≠ id → NeedsWhole p z c.uid →
    NeedsWhole p id u

end Plan

/-! ## What the analysis has found to be needed -/

/-- Two maps that differ only in an entry that no lookup sees tell apart what is needed as a
whole. -/
theorem Needs.mem_whole_of_agree {v : Uid} (h : ∀ a b, n'.Agree u a b → n.Agree v a b)
    (hv : v ∈ n.whole) : u ∈ n'.whole := by
  by_contra hu
  have hagree : n'.Agree u (.map [("", .null)]) (.map [("", .null), ("", .null)]) :=
    .inr ⟨hu, _, _, rfl, rfl, fun k _ => by
      unfold Value.lookup?
      rw [Needs.lookup_pair, Needs.lookup_pair, Needs.lookup_pair]
      by_cases hk : k = "" <;> simp [hk]⟩
  simpa using (h _ _ hagree).eq_of_whole hv

/-- The part of an order that starts at some place holds whatever the nodes there lead to. -/
theorem Graph.Ordered.mem_of_edge {α : Type} {g : Graph α} (ho : g.Ordered (before ++ behind))
    (hnodup : (before ++ behind).Nodup) (hx : x ∈ behind) (hxy : x ∈ g.predecessors y)
    (hy : y ∈ before ++ behind) : y ∈ behind := by
  refine (List.mem_append.mp hy).resolve_left fun hmem => ?_
  obtain ⟨A, B, rfl⟩ := List.append_of_mem hmem
  have hA := ho A y (B ++ behind) (by simp) x hxy
  exact List.disjoint_of_nodup_append hnodup (by simp [hA]) hx

namespace Plan

theorem Gathers.append {l' : List NodeId} (h : Gathers p (l ++ l') n N) :
    ∃ m, Gathers p l n m ∧ Gathers p l' m N := by
  induction l generalizing n with
  | nil => exact ⟨n, .nil, h⟩
  | cons z l ih =>
    cases h with
    | cons hstep hrest =>
      obtain ⟨m, hl, hl'⟩ := ih hrest
      exact ⟨m, .cons hstep hl, hl'⟩

/-- What lies behind a node has its turn before the node has. -/
theorem mem_of_descendant (hwf : p.graph.WellFormed) {order : List NodeId} (hnodup : order.Nodup)
    (hmem : ∀ id, id ∈ order ↔ p.graph.contains id = true) (hord : p.graph.Ordered order)
    (heq : order.reverse = before ++ z :: behind) (hx : x ∈ p.graph.descendants z) (hxz : x ≠ z) :
    x ∈ before := by
  obtain rfl : order = (behind.reverse ++ (z :: before.reverse)) := by
    rw [← List.reverse_reverse order, heq]
    simp
  have hall : ∀ x ∈ p.graph.descendants z, x ∈ z :: before.reverse := by
    refine descendants_subset (by simp) fun x hx y hy => ?_
    exact hord.mem_of_edge hnodup hx ((hwf.edge x y).mp hy) ((hmem y).mpr (hwf.target hy))
  simpa [hxz] using hall x hx

theorem ShowsDerived.eq {s t : Schema} (h : ShowsDerived r q) (hx : r.memoOf x = some (some s))
    (hshows : q.Shows x t) : s = t := by
  have hs := h x _ hx
  exact Option.some.inj (Option.some.inj (hs.symm.trans hshows))

/-- When the analysis has left an operator behind it has found what the operator needs as a
whole. -/
theorem mem_whole_of_needsWhole (hr : r.Sound) (hann : Annotated tables r q)
    (hshows : ShowsDerived r q) {order : List NodeId} (hnodup : order.Nodup)
    (hmem : ∀ id, id ∈ order ↔ r.graph.contains id = true) (hord : r.graph.Ordered order)
    (h : q.NeedsWhole z u) : ∀ {before behind : List NodeId} {n n' : Needs},
      order.reverse = before ++ z :: behind → Gathers r before {} n → Provides r z n n' →
      u ∈ n'.whole := by
  induction h with
  | @reads id x op f input i s c hop hf hreads hx hs hc =>
    intro before behind n n' heq hbefore hstep
    have hcore : q.core? id = some op.core := by rw [core?, hop]; rfl
    rcases hann.core id with hsame | ⟨name, l, table, -, -, hload⟩
    · obtain ⟨op', hop', hcore'⟩ := Option.map_eq_some_iff.mp (hsame.symm.trans hcore)
      have hf' : f ∈ op'.operation.formulas := formulas_eq_of_core hcore' ▸ hf
      have huse := hreads.mem_columnUses (hr.formulas id op' hop' f hf')
      obtain ⟨v, ⟨y, t, c', hy, ht, hc', rfl⟩, hv⟩ := hstep.uses op.core (hsame.symm.trans hcore) f
        (by rwa [Operator.operation_core, Operation.formulas_withoutUids]) _ huse
      obtain rfl : y = x := by
        rw [hann.dataInputs] at hx
        exact Option.some.inj (hy.symm.trans hx)
      obtain rfl := hshows.eq ht hs
      obtain rfl : c' = c := Option.some.inj (hc'.symm.trans hc)
      exact hv
    · -- a load has no formulas
      rw [← Operation.formulas_withoutUids, ← Operator.operation_core,
        Option.some.inj (hcore.symm.trans hload)] at hf
      simp [Operation.formulas] at hf
  | @takes id x t s u ht htt hx hs hu =>
    intro before behind n n' heq hbefore hstep
    rw [hann.dataInputs] at hx
    obtain ⟨s', hs', hall⟩ := hstep.whole t (hann.hasType.mp ht) htt x hx
    obtain rfl := hshows.eq hs' hs
    exact hall u hu
  | @hands id z s c u ht hs hc hu hz hne _ ih =>
    intro before behind n n' heq hbefore hstep
    obtain ⟨s', hs', hall⟩ := hstep.union (hann.hasType.mp ht)
    obtain rfl := hshows.eq hs' hs
    have hid : r.graph.contains id = true := by
      obtain ⟨op, hop, -⟩ := hann.hasType.mp ht
      exact contains_of_operator? hop
    have hz' : z ∈ before := by
      refine mem_of_descendant hr.wellFormed hnodup hmem hord heq ?_ hne
      exact descendants_subset (R := (· ∈ r.graph.descendants id))
        (self_mem_descendants hid)
        (fun x hx y hy => hr.wellFormed.mem_descendants hx (hann.successors x ▸ hy)) z hz
    obtain ⟨front, rest, rfl⟩ := List.append_of_mem hz'
    obtain ⟨m, hfront, hrest⟩ := hbefore.append
    cases hrest with
    | cons hz hrest =>
      have hwhole := ih (show _ = front ++ z :: (rest ++ id :: behind) by simp [heq]) hfront hz
      exact Needs.mem_whole_of_agree (hall c hc u hu) (hrest.le.whole _ hwhole)

/-! ## What loads are left with -/

/-- The columns that a load declares. -/
def declared? (p : Plan) (id : NodeId) : Option Schema :=
  (p.operator? id).bind fun op =>
    match op.operation with
    | .load l => l.declared
    | _ => none

theorem declared?_eq : p.declared? id = (p.core? id).bind fun op =>
    match op.operation with
    | .load l => l.declared
    | _ => none := by
  unfold declared? core?
  cases p.operator? id with
  | none => rfl
  | some op => cases ho : op.operation <;> simp [ho, Operation.withoutUids]

/-- A derived schema of a load is the declared one. -/
theorem Coherent.memoOf_load (hp : p.Coherent) {l : Load} {name : Option String}
    (hcore : p.core? id = some { name, operation := .load l }) (hs : p.memoOf id = some s) :
    l.declared = s := by
  obtain ⟨op, hop, hop'⟩ := Option.map_eq_some_iff.mp hcore
  have ho : op.operation = .load l := by
    have := congrArg Operator.operation hop'
    rw [Operator.operation_core] at this
    cases ho : op.operation <;> simp_all [Operation.withoutUids]
  obtain ⟨-, hderive⟩ := hp id op s hop (by rwa [memoOf, hop] at hs)
  have hmade := hderive default
  unfold Operator.deriveSchema at hmade
  simp only [ho, Except.ok.injEq, Prod.mk.injEq] at hmade
  exact hmade.1

theorem NeedsWhole.contains (h : p.NeedsWhole z u) : p.graph.contains z = true := by
  cases h with
  | reads hop => exact contains_of_operator? hop
  | takes ht =>
    obtain ⟨op, hop, -⟩ := ht
    exact contains_of_operator? hop
  | hands ht =>
    obtain ⟨op, hop, -⟩ := ht
    exact contains_of_operator? hop

theorem mem_tableFor {s : Schema} {e : Nat × List String} (he : e ∈ n.tableFor s) :
    ∃ c, s[e.1]? = some c ∧ c.type = .map ∧ c.uid ∉ n.whole := by
  unfold Needs.tableFor at he
  obtain ⟨⟨c, i⟩, hc, he⟩ := List.mem_filterMap.mp he
  have hc := List.mk_mem_zipIdx_iff_getElem?.mp hc
  dsimp only at he
  split at he
  · simp at he
  · next hfree =>
    obtain ⟨keys, -, rfl⟩ := Option.map_eq_some_iff.mp he
    refine ⟨c, hc, ?_, ?_⟩ <;> simp_all

theorem exists_load (h : p.HasType id .load) :
    ∃ name l, p.core? id = some { name, operation := .load l } := by
  obtain ⟨op, hop, htype⟩ := h
  have hcore : p.core? id = some op.core := by rw [core?, hop]; rfl
  cases ho : op.operation <;> simp [Operator.type, ho, Operation.type] at htype
  exact ⟨op.name, _, by rw [hcore, Operator.core, ho]; rfl⟩

/-- A run of the analysis on the plan ends with the table for the load. -/
def Puts (p : Plan) (id : NodeId) (table : KeyTable) : Prop :=
  ∃ tables, (Pass.result? analyzeMapKeys p).join = some tables ∧ (id, table) ∈ tables

/-- The keys in a table that is put on a load are of columns that no operator needs as a whole. -/
theorem free_of_annotateAll {s' : Schema} {order : List NodeId} {table : KeyTable} (hr : r.Sound)
    (hvr : r.Valid) (hq : q.Ready) (hann : Annotated tables r q)
    (hannotate : (tables.forM fun (id, table) => annotate id table) r = .ok () q)
    (hnodup : order.Nodup) (hmem : ∀ id, id ∈ order ↔ r.graph.contains id = true)
    (hord : r.graph.Ordered order) (hgathers : Gathers r order.reverse {} N)
    (htables : ∀ x ∈ tables, r.HasType x.1 .load ∧
      ∃ s, r.memoOf x.1 = some (some s) ∧ x.2 = N.tableFor s)
    (hid : (id, table) ∈ tables) (hs : q.declared? id = some s') {e : Nat × List String}
    (he : e ∈ table) {c : Field} (hc : s'[e.1]? = some c) : ¬ q.NeedsWhole z c.uid := by
  intro hneeds
  obtain ⟨hload, t, ht, rfl⟩ := htables _ hid
  obtain ⟨name, l, hcore⟩ := exists_load hload
  have hdeclared := hr.coherent.memoOf_load hcore ht
  obtain rfl : t = s' := by
    rw [declared?_eq] at hs
    rcases hann.core id with hsame | ⟨name', l', table', -, hcore', hnoted⟩
    · rw [hsame, hcore] at hs
      simpa [hdeclared] using hs
    · rw [hnoted] at hs
      obtain ⟨-, rfl⟩ : name = name' ∧ l = l' := by simpa [hcore] using hcore'
      simpa [hdeclared] using hs
  -- what is in the table is not needed as a whole, but all that is needed was found
  obtain ⟨c', hc', -, hfree⟩ := mem_tableFor he
  obtain rfl : c' = c := Option.some.inj (hc'.symm.trans hc)
  have hshows := (noted_of_annotateAll hannotate).showsDerived (hr.ready hvr) hq
    (size_congr fun _ => hann.contains)
  have hz : z ∈ order.reverse := by
    rw [List.mem_reverse, hmem, ← hann.contains]
    exact hneeds.contains
  obtain ⟨before, behind, heq⟩ := List.append_of_mem hz
  rw [heq] at hgathers
  obtain ⟨m, hbefore, hrest⟩ := hgathers.append
  cases hrest with
  | cons hstep hrest =>
    have hwhole := mem_whole_of_needsWhole hr hann hshows hnodup hmem hord hneeds heq hbefore hstep
    exact hfree (hrest.le.whole _ hwhole)

/-- A load that has keys noted after a run has them from the run or from before it. All keys that
the run puts on a load, also such as it had already, are of columns that no operator of the plan
needs as a whole. What was noted before is left on the loads on which the run puts nothing. -/
theorem entries_of_pruneMapKeys {count : Nat} {table : KeyTable} (hp : p.Sound)
    (hvalid : p.validate = .ok ()) (hrun : pruneMapKeys p = .ok count q)
    (htable : q.keyTable? id = some table) :
    (p.Puts id table ∧ ∀ s, q.declared? id = some s → ∀ e ∈ table, ∀ c, s[e.1]? = some c →
      ∀ z, ¬ q.NeedsWhole z c.uid) ∨
    ((∀ t, ¬ p.Puts id t) ∧ p.keyTable? id = some table) := by
  have hv := (validate_eq_ok hp.wellFormed hp.formulas).mp hvalid
  have hspec := analyzeMapKeys_spec (hp.ready hv)
  unfold pruneMapKeys at hrun
  obtain ⟨found, r, hfound, hrun⟩ := Pass.bind_eq_ok.mp hrun
  rw [hfound] at hspec
  have hputs : ∀ t, p.Puts id t ↔ ∃ tables, found = some tables ∧ (id, t) ∈ tables := by
    simp [Puts, Pass.result?, hfound]
  cases found with
  | none =>
    -- the analysis gave up, and nothing was noted
    obtain ⟨-, rfl⟩ : 0 = count ∧ r = q := by simpa using hrun
    refine .inr ⟨by simp [hputs], ?_⟩
    rw [keyTable?_eq, ← hspec.alike.core?, ← keyTable?_eq, htable]
  | some tables =>
    obtain ⟨hext, order, N, horder, hgathers, htables⟩ := hspec
    obtain ⟨hnodup, hmem, hord⟩ := topologicalOrder_spec hp.wellFormed horder
    have hr := hp.extends hext
    have hvr := hext.alike.valid hv
    have htables : ∀ x ∈ tables, r.HasType x.1 .load ∧
        ∃ s, r.memoOf x.1 = some (some s) ∧ x.2 = N.tableFor s := fun x hx =>
      ⟨hext.alike.symm.hasType (htables x hx).1, (htables x hx).2⟩
    obtain ⟨q', hannotate, hwf, hcoh, hann⟩ := annotateAll_spec tables hr.wellFormed
      hr.coherent fun x hx => by
        obtain ⟨op, hop, -⟩ := (htables x hx).1
        exact contains_of_operator? hop
    dsimp only at hrun
    rw [Pass.bind_of_ok hannotate] at hrun
    obtain ⟨-, rfl⟩ : tables.length = count ∧ q' = q := by simpa using hrun
    simp only [hputs, Option.some.injEq, exists_eq_left']
    by_cases hlisted : ∃ t, (id, t) ∈ tables
    · obtain ⟨t, ht⟩ := hlisted
      obtain ⟨t', hput, ht'⟩ := hann.noted (id, t) ht (htables _ ht).1
      obtain rfl : t' = table := Option.some.inj (ht'.symm.trans htable)
      have hready : q'.Ready := ⟨hwf, (hann.valid hvr).acyclic, hcoh⟩
      refine .inl ⟨hput, fun s hs e he c hc z => ?_⟩
      refine free_of_annotateAll hr hvr hready hann hannotate hnodup (fun x => ?_)
        (fun before x behind heq y hy => ?_) hgathers htables hput hs he hc
      · rw [hmem, hext.alike.contains]
      · exact hord before x behind heq y (hext.alike.predecessors x ▸ hy)
    · have hlisted := not_exists.mp hlisted
      refine .inr ⟨hlisted, ?_⟩
      rw [← htable, hann.keyTable?_of_notMem hlisted, keyTable?_eq, keyTable?_eq,
        hext.alike.core?]

/-- The keys that are looked up are noted, and nothing needs their column as a whole. A second run
notes the same ones again. -/
theorem lookupPlan_entries : ∃ q q', pruneMapKeys lookupPlan = .ok 1 q ∧
    pruneMapKeys q = .ok 1 q' ∧ q.keyTable? ⟨0⟩ = some [(0, ["a"])] ∧
    q'.keyTable? ⟨0⟩ = some [(0, ["a"])] ∧ q.Puts ⟨0⟩ [(0, ["a"])] ∧
    (∀ s, q.declared? ⟨0⟩ = some s → ∀ c, s[0]? = some c → ∀ z, ¬ q.NeedsWhole z c.uid) ∧
    ∀ s, q'.declared? ⟨0⟩ = some s → ∀ c, s[0]? = some c → ∀ z, ¬ q'.NeedsWhole z c.uid := by
  let q := Pass.after pruneMapKeys lookupPlan
  let q' := Pass.after pruneMapKeys q
  have hrun : pruneMapKeys lookupPlan = .ok 1 q := Pass.eq_ok_after (by decide +kernel)
  have hrun' : pruneMapKeys q = .ok 1 q' := Pass.eq_ok_after (by decide +kernel)
  have hsound : lookupPlan.Sound :=
    sound_of_fresh (by decide +kernel) (by decide +kernel) (by decide +kernel)
  have hsound' : q.Sound :=
    sound_of_fresh (by decide +kernel) (by decide +kernel) (by decide +kernel)
  have htable : q.keyTable? ⟨0⟩ = some [(0, ["a"])] := by decide +kernel
  have htable' : q'.keyTable? ⟨0⟩ = some [(0, ["a"])] := by decide +kernel
  have hputs : q.Puts ⟨0⟩ [(0, ["a"])] :=
    ⟨[(⟨0⟩, [(0, ["a"])])], by decide +kernel, List.mem_singleton_self _⟩
  obtain ⟨-, hfree⟩ :=
    (entries_of_pruneMapKeys hsound (by decide +kernel) hrun htable).resolve_right
      fun h => absurd h.2 (by decide +kernel)
  obtain ⟨-, hfree'⟩ :=
    (entries_of_pruneMapKeys hsound' (by decide +kernel) hrun' htable').resolve_right
      fun h => h.1 _ hputs
  exact ⟨q, q', hrun, hrun', htable, htable', hputs,
    fun s hs c hc => hfree s hs (0, ["a"]) (by simp) c hc,
    fun s hs c hc => hfree' s hs (0, ["a"]) (by simp) c hc⟩

/-- After the keys were noted, the operator that looks one up is taken out, so that whole maps are
stored. -/
def widenedPlan : Plan := Pass.after (do discard pruneMapKeys; discard (bypass ⟨1⟩)) lookupPlan

/-- Noting the keys once more finds nothing to note, but leaves the load with the old ones. -/
theorem not_entries_of_pruneMapKeys : widenedPlan.Sound ∧ widenedPlan.validate = .ok () ∧
    ∃ q, pruneMapKeys widenedPlan = .ok 0 q ∧ q.keyTable? ⟨0⟩ = some [(0, ["a"])] ∧
      ∃ s c, q.declared? ⟨0⟩ = some s ∧ s[0]? = some c ∧ q.NeedsWhole ⟨2⟩ c.uid := by
  have hrun := Pass.eq_ok_after (x := pruneMapKeys) (s := widenedPlan) (a := 0) (by decide +kernel)
  refine ⟨sound_of_fresh (by decide +kernel) (by decide +kernel) (by decide +kernel),
    by decide +kernel, _, hrun, by decide +kernel, ?_⟩
  have hstore : (Pass.after pruneMapKeys widenedPlan).HasType ⟨2⟩ .store :=
    typeOf_eq_ok.mp (by decide +kernel)
  let column : Field := { name := some "m", type := .map, uid := ⟨1⟩ }
  have hshows : (Pass.after pruneMapKeys widenedPlan).Shows ⟨0⟩ [column] := by
    unfold Shows
    decide +kernel
  have hinput : ⟨0⟩ ∈ (Pass.after pruneMapKeys widenedPlan).dataInputs ⟨2⟩ := by decide +kernel
  exact ⟨[column], column, by decide +kernel, rfl,
    .takes hstore (.inl rfl) hinput hshows (by decide +kernel)⟩

end Plan

end Dataflow

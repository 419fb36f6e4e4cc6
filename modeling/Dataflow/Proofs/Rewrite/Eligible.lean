import Dataflow.Proofs.Rewrite.Steps

/-!
# Finding a filter to move

The search for a filter that can be moved in front of a `ForEach` asks for schemas and changes
nothing else. What it finds leads back to the `ForEach` through filters, and every column that the
filter reads is a column of the `ForEach` with an identity that the input of the `ForEach` has, too,
so that there is a place for it (`Eligible.exists_place`).
-/

namespace Dataflow.Plan

open Dataflow.Graph

variable {p q r : Plan} {a x y z id F G input : NodeId} {f : Formula} {name : Option String}

/-! ## Identities of columns -/

theorem mem_insertUid {u v : Uid} : ∀ {l : List Uid}, v ∈ insertUid u l ↔ v = u ∨ v ∈ l
  | [] => by simp [insertUid]
  | w :: l => by
    unfold insertUid
    split
    · simp
    split
    · rename_i heq
      simp [heq]
    · simp only [List.mem_cons, mem_insertUid (l := l)]
      tauto

theorem columnUids_eq_ok : ∀ {columns : List (Nat × Nat)} {known uids : List Uid} {p : Plan},
    p.Coherent → columnUids id columns known p = .ok (some uids) q →
    Extends p q ∧ (∀ uid ∈ known, uid ∈ uids) ∧
      ∀ c ∈ columns, ∃ uid ∈ uids, q.ColumnHas id c.1 c.2 uid
  | [], known, uids, p, hp, h => by
    obtain ⟨rfl, rfl⟩ : known = uids ∧ p = q := by simpa [columnUids] using h
    exact ⟨.refl hp, fun _ hu => hu, by simp⟩
  | (i, j) :: rest, known, uids, p, hp, h => by
    unfold columnUids at h
    obtain ⟨uid?, p₁, h₁, h⟩ := Pass.bind_eq_ok.mp h
    cases uid? with
    | none => simp at h
    | some uid =>
      obtain ⟨hext₁, hcol⟩ := columnUid_eq_ok hp h₁
      obtain ⟨hext, hknown, hall⟩ := columnUids_eq_ok hext₁.coherent h
      refine ⟨hext₁.trans hext, fun u hu => hknown u (mem_insertUid.mpr (.inr hu)), ?_⟩
      intro c hc
      rcases List.mem_cons.mp hc with rfl | hc
      · exact ⟨uid, hknown uid (mem_insertUid.mpr (.inl rfl)), hcol.extends hext⟩
      · exact hall c hc

/-! ## The search -/

theorem Asks.formulaUids (h : p.Ready) : Asks p (formulaUids id f) := Asks.columnUids h

theorem Extends.filterPredicate (h : Extends p q) (hf : p.IsFilter id name f) :
    Rule.filterPredicate q id = .ok f := filterPredicate_eq_ok.mpr ⟨name, h.alike.isFilter.mpr hf⟩

/-- A pass may go on at the only output of an operator. -/
theorem Asks.onOutput {β : Type} (none : β) {k : NodeId → Edit β} (h : p.Ready)
    (hk : ∀ y ∈ p.graph.successors x, Asks p (k y)) : Asks p (do
      match (← get).successors x with
      | [next] => k next
      | _ => Pure.pure none) := by
  refine .read (f := fun q => match q.graph.successors x with
    | [next] => k next
    | _ => Pure.pure none) (fun q hq => by rw [hq.alike.successors]) ?_
  split
  · rename_i next hnext
    exact hk next (by simp [hnext])
  · exact .pure h

theorem Asks.firstEligible (h : p.Ready) (available : List Uid) : ∀ (steps : Nat) {x : NodeId},
    p.graph.contains x = true → Asks p (Rule.firstEligible available steps x)
  | 0, _, _ => .pure h
  | steps + 1, x, hx => by
    obtain ⟨t, ht⟩ := exists_hasType hx
    have hnext := Asks.onOutput none (x := x) h fun y hy =>
      Asks.firstEligible h available steps (h.wellFormed.target hy)
    unfold Rule.firstEligible
    refine .readResult (b := t) (fun q hq => hq.typeOf ht) h.coherent ?_
    by_cases hfilter : t = .filter
    · subst hfilter
      rw [if_neg (by simp)]
      obtain ⟨name, f, hf⟩ := ht.isFilter
      refine .readResult (b := f) (fun q hq => hq.filterPredicate hf) h.coherent ?_
      refine (Asks.formulaUids h).bind fun _ uids _ _ _ => ?_
      cases uids with
      | none => exact hnext
      | some uids =>
        by_cases hall : (uids.all available.contains) = true
        · simp only [hall, if_true]; exact .pure h
        · simp only [hall, Bool.false_eq_true, if_false]; exact hnext
    · rw [if_pos hfilter]
      exact .pure h

/-- A filter that was found is reached through filters, and all columns that it reads are known and
available. -/
theorem firstEligible_eq_ok (h : p.Ready) {available : List Uid} :
    ∀ {steps : Nat} {x : NodeId} {q : Plan}, p.graph.contains x = true → Extends p q →
    Rule.firstEligible available steps x q = .ok (some G) r →
    p.HasType x .filter ∧ (x = G ∨ ∃ path, p.LeadsTo G x path) ∧ Extends q r ∧
      ∃ name f, p.IsFilter G name f ∧
        ∀ c ∈ f.columns, ∃ uid ∈ available, r.ColumnHas G c.1 c.2 uid
  | 0, _, _, _, _, hrun => by simp [Rule.firstEligible] at hrun
  | steps + 1, x, q, hx, hq, hrun => by
    obtain ⟨t, ht⟩ := exists_hasType hx
    unfold Rule.firstEligible at hrun
    rw [Pass.bind_of_ok Pass.get_apply,
      Pass.bind_of_ok (ofResult_eq_ok.mpr ⟨hq.typeOf ht, rfl⟩)] at hrun
    by_cases hfilter : t = .filter
    · subst hfilter
      obtain ⟨name, f, hf⟩ := ht.isFilter
      rw [if_neg (by simp), Pass.bind_of_ok Pass.get_apply,
        Pass.bind_of_ok (ofResult_eq_ok.mpr ⟨hq.filterPredicate hf, rfl⟩)] at hrun
      obtain ⟨uids, q₁, huids, hrun⟩ := Pass.bind_eq_ok.mp hrun
      have hext := ((Asks.formulaUids h q hq).1 _ _ huids).1
      -- what is found behind the only output
      have hnext : (match q₁.graph.successors x with
          | [next] => Rule.firstEligible available steps next
          | _ => Pure.pure none : Edit (Option NodeId)) q₁ = .ok (some G) r →
          p.HasType x .filter ∧ (x = G ∨ ∃ path, p.LeadsTo G x path) ∧ Extends q r ∧
            ∃ name f, p.IsFilter G name f ∧
              ∀ c ∈ f.columns, ∃ uid ∈ available, r.ColumnHas G c.1 c.2 uid := by
        intro hrun
        rw [(hq.trans hext).alike.successors] at hrun
        rcases hsuc : p.graph.successors x with _ | ⟨next, _ | ⟨_, _⟩⟩ <;>
          simp only [hsuc] at hrun
        · simp at hrun
        · obtain ⟨hnt, hlead, hext', hfound⟩ := firstEligible_eq_ok h
            (h.wellFormed.target (a := x) (by simp [hsuc])) (hq.trans hext) hrun
          refine ⟨ht, .inr ?_, hext.trans hext', hfound⟩
          rcases hlead with rfl | ⟨path, hpath⟩
          · exact ⟨_, .last hsuc⟩
          · exact ⟨_, .step hsuc hnt hpath⟩
        · simp at hrun
      cases uids with
      | none => exact hnext hrun
      | some uids =>
        by_cases hall : (uids.all available.contains) = true
        · simp only [hall, if_true, Pass.pure_apply, EStateM.Result.ok.injEq,
            Option.some.injEq] at hrun
          obtain ⟨rfl, rfl⟩ := hrun
          obtain ⟨-, -, hcols⟩ := columnUids_eq_ok hq.coherent huids
          refine ⟨ht, .inl rfl, hext, name, f, hf, fun c hc => ?_⟩
          obtain ⟨uid, huid, hcol⟩ := hcols c hc
          exact ⟨uid, by simpa using List.all_eq_true.mp hall uid huid, hcol⟩
        · simp only [hall, Bool.false_eq_true, if_false] at hrun
          exact hnext hrun
    · rw [if_pos hfilter] at hrun
      simp at hrun

theorem Asks.eligibleFilter (h : p.Ready) : Asks p (Rule.eligibleFilter F) := by
  unfold Rule.eligibleFilter
  refine .read (fun q hq => ?_) ?_
  · unfold Plan.predecessors Plan.successors
    rw [hq.alike.predecessors, hq.alike.successors, hq.graph_size h]
  · split
    · rename_i input first hpre hsuc
      refine (Asks.schema h (h.wellFormed.source (b := F) ?_)).bind fun _ s _ _ _ => ?_
      · rw [show p.graph.predecessors F = [input] from hpre]; simp
      cases s with
      | none => exact .pure h
      | some s =>
        refine (Asks.firstEligible h _ _ (h.wellFormed.target (a := F) ?_)).bind
          fun _ _ _ _ _ => .pure h
        rw [show p.graph.successors F = [first] from hsuc]; simp
    · exact .pure h

/-- What the search finds: `G` can be moved in front of `F`, whose input is `input`. -/
structure Eligible (p r : Plan) (input F G : NodeId) (path : List NodeId) (name : Option String)
    (f : Formula) (s : Schema) : Prop where
  source : p.graph.predecessors F = [input]
  leads : p.LeadsTo G F path
  filter : p.IsFilter G name f
  known : r.memoOf input = some (some s)
  columns : ∀ c ∈ f.columns, ∃ uid ∈ s.uids, r.ColumnHas G c.1 c.2 uid

theorem eligibleFilter_eq_ok (h : p.Ready) (hq : Extends p q)
    (hrun : Rule.eligibleFilter F q = .ok (some (input, G)) r) :
    Extends q r ∧ ∃ path name f s, Eligible p r input F G path name f s := by
  unfold Rule.eligibleFilter at hrun
  rw [Pass.bind_of_ok Pass.get_apply] at hrun
  unfold Plan.predecessors Plan.successors at hrun
  rw [hq.alike.predecessors, hq.alike.successors] at hrun
  rcases hpre : p.graph.predecessors F with _ | ⟨input', _ | ⟨_, _⟩⟩ <;>
    rcases hsuc : p.graph.successors F with _ | ⟨first, _ | ⟨_, _⟩⟩ <;>
    simp only [hpre, hsuc, Pass.pure_apply, reduceCtorEq, EStateM.Result.ok.injEq,
      false_and] at hrun
  · obtain ⟨s, q₁, hs, hrun⟩ := Pass.bind_eq_ok.mp hrun
    obtain ⟨hext, hmemo⟩ := schema_eq_ok hq.coherent hs
    cases s with
    | none => simp at hrun
    | some s =>
      obtain ⟨found, q₂, hfound, hrun⟩ := Pass.bind_eq_ok.mp hrun
      simp only [Pass.pure_apply, EStateM.Result.ok.injEq, Option.map_eq_some_iff,
        Prod.mk.injEq] at hrun
      obtain ⟨⟨G', rfl, rfl, rfl⟩, rfl⟩ := hrun
      obtain ⟨hft, hlead, hext', name, f, hf, hcols⟩ := firstEligible_eq_ok h
        (h.wellFormed.target (a := F) (by simp [hsuc])) (hq.trans hext) hfound
      have hpath : ∃ path, p.LeadsTo G' F path := by
        rcases hlead with rfl | ⟨path, hpath⟩
        · exact ⟨_, .last hsuc⟩
        · exact ⟨_, .step hsuc hft hpath⟩
      obtain ⟨path, hpath⟩ := hpath
      exact ⟨hext.trans hext', path, name, f, s, hpre, hpath, hf, hext'.memo _ _ hmemo, hcols⟩

/-! ## Schemas behind filters -/

/-- A filter has the schema of its input. -/
theorem Coherent.memoOf_input {s : Option Schema} (hp : p.Coherent) (hf : p.IsFilter z name f)
    (hpre : p.graph.predecessors z = [y]) (hs : p.memoOf z = some s) : p.memoOf y = some s := by
  obtain ⟨op, hop, ho, -⟩ := hf.operator?
  rw [memoOf, hop, Option.bind_some] at hs
  obtain ⟨hall, hderive⟩ := hp z op s hop hs
  have hins : p.dataInputs z = [y] := by
    rw [dataInputs_of_operator? hop, hpre]
    simp [Operator.type, ho, Operation.type]
  have hd := hderive p.uids
  rw [hins] at hall hd
  obtain ⟨t, ht⟩ := Option.isSome_iff_exists.mp (hall y (by simp))
  simp only [Operator.deriveSchema, ho, List.map_cons, List.map_nil, Expr.schemaOf?, ht,
    Except.ok.injEq, Prod.mk.injEq, List.getElem?_cons_zero, Option.join_some] at hd
  rw [ht, hd.1]

/-- Operators on the way to the filter have the schema of the first one. -/
theorem LeadsTo.memoOf_eq {path : List NodeId} {s : Option Schema} (h : p.LeadsTo G x path)
    (hs : p.Sound) (hv : p.Valid) (hr : Extends p r) (hz : z ∈ path) (hm : r.memoOf z = some s) :
    r.memoOf x = some s := by
  induction h with
  | last =>
    obtain rfl : z = _ := by simpa using hz
    exact hm
  | @step x y path hsuc hy hrest ih =>
    rcases List.mem_cons.mp hz with rfl | hz
    · exact hm
    · obtain ⟨name, f, hf⟩ := hy.isFilter
      have hpre := hf.predecessors_eq hs hv (x := x) (by simp [hsuc])
      exact hr.coherent.memoOf_input (hr.alike.isFilter.mpr hf)
        ((hr.alike.predecessors y).trans hpre) (ih hz)

/-- The columns that a filter to be moved reads are columns of the `ForEach`. -/
theorem Eligible.exists_column {path : List NodeId} {s : Schema}
    (h : Eligible p r input F G path name f s) (hs : p.Sound) (hv : p.Valid) (hr : Extends p r) :
    ∀ c ∈ f.columns, ∃ uid ∈ s.uids, ∃ t field, r.memoOf F = some (some t) ∧
      t[c.2]? = some field ∧ field.uid = uid := by
  intro c hc
  obtain ⟨uid, huid, x, t, field, hx, ht, hfield, heq⟩ := h.columns c hc
  obtain ⟨a, ha, hsuc⟩ := h.leads.exists_last
  refine ⟨uid, huid, t, field, ?_, hfield, heq⟩
  -- the column is one of the operator before the filter, which has the schema of `F`
  have hxa : x = a := by
    have hpre := h.filter.predecessors_eq hs hv (x := a) (by simp [hsuc])
    have := mem_predecessors_of_mem_dataInputs (List.mem_of_getElem? hx)
    simpa [hr.alike.predecessors, hpre] using this
  exact h.leads.memoOf_eq hs hv hr (hxa ▸ ha) ht

/-- Every column that a filter to be moved reads has a place in front of the `ForEach`. -/
theorem Eligible.exists_place {path : List NodeId} {s o : Schema}
    (h : Eligible p r input F G path name f s) (hs : p.Sound) (hv : p.Valid) (hr : Extends p r)
    (ho : r.memoOf F = some (some o)) :
    ∀ c ∈ f.columns, ∃ j, Rule.placeAbove s o c.2 = .ok j := by
  intro c hc
  obtain ⟨uid, huid, t, field, ht, hfield, heq⟩ := h.exists_column hs hv hr c hc
  obtain rfl : o = t := by simpa [ho] using ht
  have hfind : (Schema.indexOfUid? s uid).isSome := by
    rw [Schema.indexOfUid?, Schema.indexWhere, List.findIdx?_isSome, List.any_eq_true]
    obtain ⟨g, hg, hgu⟩ := List.mem_map.mp huid
    exact ⟨g, hg, by simp [hgu]⟩
  obtain ⟨j, hj⟩ := Option.isSome_iff_exists.mp hfind
  exact ⟨j, by simp [Rule.placeAbove, hfield, heq, hj]⟩

end Dataflow.Plan

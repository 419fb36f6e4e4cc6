import Dataflow.Proofs.Lists
import Dataflow.Proofs.Plan.Coherent

/-!
# Requests for schemas

Asking for a schema derives those that are missing, each after those of its inputs, and changes
nothing else. On a plan without cycles the walk against the flow of rows lists every operator behind
its inputs (`Leaving`), so that a request can only fail where a schema itself cannot be derived
(`schema_eq_error`). A pass made of requests can be repeated: it then gives the same and leaves the
plan alone (`Repeats`).
-/

namespace Dataflow.Plan

open Dataflow.Graph

variable {p q r : Plan} {id x y : NodeId} {op : Operator} {s : Option Schema}
  {stack : List Visit} {entered done : List NodeId} {rank : NodeId → Nat}

/-! ## The order of deriving -/

/-- The operator of a stack entry. -/
def Visit.node : Visit → NodeId
  | .enter id => id
  | .leave id => id

/-- The state of the walk: what was entered was left or is still to be left, an operator still to be
left has its missing inputs before it on the stack, and ranks grow down the stack. -/
structure Leaving (p : Plan) (rank : NodeId → Nat) (stack : List Visit)
    (entered done : List NodeId) : Prop where
  entered : ∀ x ∈ entered, x ∈ done ∨ .leave x ∈ stack
  inputs : ∀ before x behind, stack = before ++ .leave x :: behind →
    ∀ q ∈ p.dataInputs x, p.isPending q = true →
      q ∈ done ∨ .leave q ∈ before ∨ .enter q ∈ before
  below : ∀ before x behind, stack = before ++ .leave x :: behind →
    ∀ v ∈ before, rank v.node < rank x
  contains : ∀ x, .leave x ∈ stack → p.graph.contains x = true

theorem mem_postOrder : ∀ {x : NodeId}, .leave x ∈ stack → x ∈ p.postOrder stack entered := by
  induction stack, entered using postOrder.induct (p := p) with
  | case1 entered => intro x hx; simp at hx
  | case2 entered id rest ih =>
    intro x hx
    rw [postOrder]
    rcases List.mem_cons.mp hx with heq | hx
    · obtain rfl := Visit.leave.inj heq; simp
    · exact List.mem_cons_of_mem _ (ih hx)
  | case3 entered id rest hv ih =>
    intro x hx
    rw [postOrder]
    split
    · exact ih (by simpa using hx)
    · simp_all
  | case4 entered id rest v hv hmem ih =>
    intro x hx
    rw [postOrder]
    split
    · simp_all
    · rw [dif_pos hmem]; exact ih (by simpa using hx)
  | case5 entered id rest v hv hmem ih =>
    intro x hx
    rw [postOrder]
    split
    · simp_all
    · rename_i w hw
      obtain rfl : v = w := by simpa [hv] using hw
      rw [dif_neg hmem]
      refine ih ?_
      have hx : .leave x ∈ rest := by simpa using hx
      exact List.mem_append_right _ (List.mem_cons_of_mem _ hx)

theorem postOrder_enter {rest : List Visit} {v : Vertex Operator}
    (hv : p.graph.vertices[id]? = some v) (hid : id ∉ entered) :
    p.postOrder (.enter id :: rest) entered =
      p.postOrder ((p.toEnter (id :: entered) v).map Visit.enter ++ .leave id :: rest)
        (id :: entered) := by
  rw [postOrder]
  split
  · simp_all
  · rename_i w hw
    obtain rfl : v = w := by simpa [hv] using hw
    rw [dif_neg hid]

theorem postOrder_skip {rest : List Visit}
    (h : p.graph.vertices[id]? = none ∨ id ∈ entered) :
    p.postOrder (.enter id :: rest) entered = p.postOrder rest entered := by
  rw [postOrder]
  split
  · rfl
  · rename_i w hw
    rcases h with h | h
    · simp [h] at hw
    · rw [dif_pos h]

theorem dataIns_eq {v : Vertex Operator} (hv : p.graph.vertices[id]? = some v) :
    dataIns v = p.dataInputs id := by
  simp [dataInputs, hv]

namespace Leaving

variable {rest : List Visit} {v : Vertex Operator}

/-- Nothing is on the stack in front of an operator to be entered that is left after it. -/
theorem done_of_entered (h : Leaving p rank (.enter id :: rest) entered done)
    (hx : x ∈ entered) (hle : rank x ≤ rank id) : x ∈ done := by
  refine (h.entered x hx).resolve_right fun hs => ?_
  have hs : .leave x ∈ rest := by simpa using hs
  obtain ⟨b₁, b₂, rfl⟩ := List.append_of_mem hs
  have := h.below (.enter id :: b₁) x b₂ rfl (.enter id) (by simp)
  exact absurd hle (Nat.not_le.mpr this)

theorem start : Leaving p rank [.enter id] [] [] := by
  refine ⟨by simp, fun before x behind hsplit => ?_, fun before x behind hsplit => ?_, by simp⟩
  all_goals
    rcases Lists.of_cons_eq_append_cons hsplit with ⟨-, heq, -⟩ | ⟨before', -, heq⟩
    · exact absurd heq (by simp)
    · exact absurd heq (by simp)

theorem leave (h : Leaving p rank (.leave id :: rest) entered done) :
    Leaving p rank rest entered (done ++ [id]) := by
  refine ⟨fun z hz => ?_, fun before z behind hsplit q hq hpend => ?_,
    fun before z behind hsplit v hv => ?_, fun z hz => ?_⟩
  · rcases h.entered z hz with hd | hs
    · exact .inl (by simp [hd])
    · rcases List.mem_cons.mp hs with heq | hs
      · obtain rfl := Visit.leave.inj heq; exact .inl (by simp)
      · exact .inr hs
  · rcases h.inputs (.leave id :: before) z behind (by rw [hsplit]; rfl) q hq hpend with
      hd | hl | he
    · exact .inl (by simp [hd])
    · rcases List.mem_cons.mp hl with heq | hl
      · obtain rfl := Visit.leave.inj heq; exact .inl (by simp)
      · exact .inr (.inl hl)
    · exact .inr (.inr (by simpa using he))
  · exact h.below (.leave id :: before) z behind (by rw [hsplit]; rfl) v (by simp [hv])
  · exact h.contains z (by simp [hz])

/-- An operator that was entered before, or that there is not, can be passed over. -/
theorem skip (hwf : p.graph.WellFormed) (h : Leaving p rank (.enter id :: rest) entered done)
    (hskip : p.graph.vertices[id]? = none ∨ id ∈ entered) :
    Leaving p rank rest entered done := by
  refine ⟨fun z hz => ?_, fun before z behind hsplit q hq hpend => ?_,
    fun before z behind hsplit v hv => ?_, fun z hz => ?_⟩
  · rcases h.entered z hz with hd | hs
    · exact .inl hd
    · exact .inr (by simpa using hs)
  · rcases h.inputs (.enter id :: before) z behind (by rw [hsplit]; rfl) q hq hpend with
      hd | hl | he
    · exact .inl hd
    · exact .inr (.inl (by simpa using hl))
    · rcases List.mem_cons.mp he with heq | he
      · obtain rfl := Visit.enter.inj heq
        rcases hskip with hv | hmem
        · have := hwf.source (mem_predecessors_of_mem_dataInputs hq)
          simp [contains_eq, hv] at this
        · exact .inl (h.done_of_entered hmem (Nat.le_refl _))
      · exact .inr (.inr he)
  · exact h.below (.enter id :: before) z behind (by rw [hsplit]; rfl) v (by simp [hv])
  · exact h.contains z (by simp [hz])

theorem enter (hwf : p.graph.WellFormed)
    (hrank : ∀ a b, b ∈ p.graph.successors a → rank a < rank b)
    (h : Leaving p rank (.enter id :: rest) entered done)
    (hv : p.graph.vertices[id]? = some v) :
    Leaving p rank ((p.toEnter (id :: entered) v).map Visit.enter ++ .leave id :: rest)
      (id :: entered) done := by
  have hlt : ∀ {a b}, a ∈ p.dataInputs b → rank a < rank b := fun hab =>
    hrank _ _ ((hwf.edge _ _).mpr (mem_predecessors_of_mem_dataInputs hab))
  have hchild : ∀ c ∈ p.toEnter (id :: entered) v, rank c < rank id := fun c hc => by
    have := (List.mem_filter.mp hc).1
    rw [dataIns_eq hv] at this
    exact hlt this
  -- where a split of the new stack comes from
  have hsplits : ∀ before z behind, (p.toEnter (id :: entered) v).map Visit.enter ++
      .leave id :: rest = before ++ .leave z :: behind →
      (z = id ∧ before = (p.toEnter (id :: entered) v).map Visit.enter) ∨
        ∃ before', before = (p.toEnter (id :: entered) v).map Visit.enter ++ .leave id ::
          before' ∧ rest = before' ++ .leave z :: behind := by
    intro before z behind hsplit
    rcases List.append_eq_append_iff.mp hsplit with ⟨c, rfl, hc⟩ | ⟨c, hc, hc'⟩
    · rcases Lists.of_cons_eq_append_cons hc with ⟨rfl, heq, -⟩ | ⟨before', rfl, hrest⟩
      · obtain rfl := Visit.leave.inj heq
        exact .inl ⟨rfl, by simp⟩
      · exact .inr ⟨before', rfl, hrest⟩
    · cases c with
      | nil =>
        simp only [List.nil_append, List.cons.injEq] at hc'
        obtain rfl := Visit.leave.inj hc'.1
        exact .inl ⟨rfl, by simpa using hc.symm⟩
      | cons d c =>
        simp only [List.cons_append, List.cons.injEq] at hc'
        obtain ⟨rfl, -⟩ := hc'
        have : Visit.leave z ∈ (p.toEnter (id :: entered) v).map Visit.enter := by
          rw [hc]; simp
        simp at this
  refine ⟨fun z hz => ?_, fun before z behind hsplit q hq hpend => ?_,
    fun before z behind hsplit u hu => ?_, fun z hz => ?_⟩
  · rcases List.mem_cons.mp hz with rfl | hz
    · exact .inr (by simp)
    · rcases h.entered z hz with hd | hs
      · exact .inl hd
      · have hs : .leave z ∈ rest := by simpa using hs
        exact .inr (List.mem_append_right _ (List.mem_cons_of_mem _ hs))
  · rcases hsplits before z behind hsplit with ⟨rfl, rfl⟩ | ⟨before', rfl, hrest⟩
    · by_cases hqe : q ∈ z :: entered
      · rcases List.mem_cons.mp hqe with rfl | hqe
        · exact absurd (hlt hq) (Nat.lt_irrefl _)
        · exact .inl (h.done_of_entered hqe (Nat.le_of_lt (hlt hq)))
      · refine .inr (.inr (List.mem_map_of_mem (List.mem_filter.mpr ⟨?_, ?_⟩)))
        · rw [dataIns_eq hv]; exact hq
        · simp [hqe, hpend]
    · rcases h.inputs (.enter id :: before') z behind (by rw [hrest]; rfl) q hq hpend with
        hd | hl | he
      · exact .inl hd
      · have hl : .leave q ∈ before' := by simpa using hl
        exact .inr (.inl (by simp [hl]))
      · rcases List.mem_cons.mp he with heq | he
        · obtain rfl := Visit.enter.inj heq
          exact .inr (.inl (by simp))
        · exact .inr (.inr (by simp [he]))
  · rcases hsplits before z behind hsplit with ⟨rfl, rfl⟩ | ⟨before', rfl, hrest⟩
    · obtain ⟨c, hc, rfl⟩ := List.mem_map.mp hu
      exact hchild c hc
    · have hbelow := h.below (.enter id :: before') z behind (by rw [hrest]; rfl)
      have hid : rank id < rank z := hbelow (.enter id) (by simp)
      rcases List.mem_append.mp hu with hu | hu
      · obtain ⟨c, hc, rfl⟩ := List.mem_map.mp hu
        exact Nat.lt_trans (hchild c hc) hid
      · rcases List.mem_cons.mp hu with rfl | hu
        · exact hid
        · exact hbelow u (by simp [hu])
  · rcases List.mem_append.mp hz with hz | hz
    · simp at hz
    · rcases List.mem_cons.mp hz with heq | hz
      · obtain rfl := Visit.leave.inj heq
        simp [contains_eq, hv]
      · exact h.contains z (by simp [hz])

/-- What is left is left behind its inputs. -/
theorem postOrder (hwf : p.graph.WellFormed)
    (hrank : ∀ a b, b ∈ p.graph.successors a → rank a < rank b)
    (h : Leaving p rank stack entered done) :
    ∀ before x behind, p.postOrder stack entered = before ++ x :: behind →
      p.graph.contains x = true ∧
        ∀ q ∈ p.dataInputs x, p.isPending q = true → q ∈ done ++ before := by
  induction stack, entered using postOrder.induct (p := p) generalizing done with
  | case1 entered =>
    intro before x behind heq
    rw [Plan.postOrder] at heq
    simp at heq
  | case2 entered id rest ih =>
    intro before x behind heq
    rw [Plan.postOrder] at heq
    rcases Lists.of_cons_eq_append_cons heq with ⟨rfl, rfl, -⟩ | ⟨before', rfl, heq'⟩
    · refine ⟨h.contains id (by simp), fun q hq hpend => ?_⟩
      rcases h.inputs [] id rest rfl q hq hpend with hd | hl | he
      · simpa using hd
      · simp at hl
      · simp at he
    · obtain ⟨hc, hq⟩ := ih h.leave before' x behind heq'
      exact ⟨hc, fun q hqx hpend => by simpa using hq q hqx hpend⟩
  | case3 entered id rest hv ih =>
    rw [postOrder_skip (.inl hv)]
    exact ih (h.skip hwf (.inl hv))
  | case4 entered id rest v hv hmem ih =>
    rw [postOrder_skip (.inr hmem)]
    exact ih (h.skip hwf (.inr hmem))
  | case5 entered id rest v hv hmem ih =>
    rw [postOrder_enter hv hmem]
    exact ih (h.enter hwf hrank hv)

end Leaving

theorem mem_pendingSchemas (hid : p.graph.contains id = true) : id ∈ p.pendingSchemas id := by
  obtain ⟨v, hv⟩ := exists_vertex hid
  unfold pendingSchemas
  rw [postOrder_enter hv (by simp)]
  exact mem_postOrder (by simp)

theorem pendingSchemas_spec (hwf : p.graph.WellFormed) (hac : p.graph.Acyclic)
    (hid : p.graph.contains id = true) : id ∈ p.pendingSchemas id ∧
      ∀ before x behind, p.pendingSchemas id = before ++ x :: behind →
        p.graph.contains x = true ∧
          ∀ q ∈ p.dataInputs x, p.isPending q = true → q ∈ before := by
  obtain ⟨rank, hrank⟩ := hac
  refine ⟨mem_pendingSchemas hid, ?_⟩
  · simpa [pendingSchemas] using
      (Leaving.start : Leaving p rank [.enter id] [] []).postOrder hwf hrank

/-! ## Deriving in turn -/

theorem memoOf_isSome_of_not_pending (h : p.isPending x = false) : (p.memoOf x).isSome := by
  unfold isPending at h
  unfold memoOf
  cases hop : p.operator? x with
  | none => simp [hop] at h
  | some op => simpa [hop, Operator.isDerived] using h

theorem Extends.isSome (h : Extends p q) (hx : (p.memoOf x).isSome) : (q.memoOf x).isSome := by
  obtain ⟨s, hs⟩ := Option.isSome_iff_exists.mp hx
  rw [h.memo x s hs]
  rfl

theorem Extends.forM : ∀ {l : List NodeId} {p : Plan} {u : Unit}, p.Coherent →
    l.forM Plan.deriveOne p = .ok u q → Extends p q ∧ ∀ x ∈ l, (q.memoOf x).isSome
  | [], p, u, hp, h => by
    obtain rfl : p = q := by simpa using h
    exact ⟨.refl hp, by simp⟩
  | a :: l, p, u, hp, h => by
    rw [Pass.forM_cons] at h
    obtain ⟨_, p₁, h₁, h⟩ := Pass.bind_eq_ok.mp h
    obtain ⟨hext, hsome⟩ := Extends.deriveOne hp h₁
    obtain ⟨hext', hall⟩ := Extends.forM hext.coherent h
    refine ⟨hext.trans hext', fun x hx => ?_⟩
    rcases List.mem_cons.mp hx with rfl | hx
    · exact hext'.isSome hsome
    · exact hall x hx

theorem forM_eq_error {e : Error} : ∀ {l : List NodeId} {p : Plan},
    l.forM deriveOne p = .error e q → ∃ before x behind r, l = before ++ x :: behind ∧
      before.forM deriveOne p = .ok () r ∧ deriveOne x r = .error e q
  | [], p, h => by simp at h
  | a :: l, p, h => by
    rw [Pass.forM_cons] at h
    rcases Pass.bind_eq_error.mp h with h | ⟨u, p₁, h₁, h⟩
    · exact ⟨[], a, l, p, rfl, rfl, h⟩
    · obtain ⟨before, x, behind, r, rfl, hr, hx⟩ := forM_eq_error h
      refine ⟨a :: before, x, behind, r, rfl, ?_, hx⟩
      rw [Pass.forM_cons]
      exact (Pass.bind_of_ok h₁).trans hr

theorem schema_of_memo (h : p.memoOf id = some s) : schema id p = .ok s p := by
  obtain ⟨op, hop, hs⟩ := Option.bind_eq_some_iff.mp h
  unfold schema
  rw [Pass.bind_of_ok Pass.get_apply,
    Pass.bind_of_ok (ofResult_eq_ok.mpr ⟨operator_eq_ok.mpr hop, rfl⟩), hs]
  rfl

theorem schema_eq_ok (hp : p.Coherent) (h : schema id p = .ok s q) :
    Extends p q ∧ q.memoOf id = some s := by
  cases hm : p.memoOf id with
  | some t =>
    rw [schema_of_memo hm] at h
    obtain ⟨rfl, rfl⟩ : t = s ∧ p = q := by simpa using h
    exact ⟨.refl hp, hm⟩
  | none =>
    unfold schema at h
    rw [Pass.bind_of_ok Pass.get_apply] at h
    obtain ⟨op, p', hop, h⟩ := Pass.bind_eq_ok.mp h
    obtain ⟨hres, rfl⟩ := ofResult_eq_ok.mp hop
    have hop := operator_eq_ok.mp hres
    have hmemo : op.memo = none := by simpa [memoOf, hop] using hm
    rw [hmemo] at h
    obtain ⟨u, q', hrun, h⟩ := Pass.bind_eq_ok.mp h
    rw [Pass.bind_of_ok Pass.get_apply] at h
    obtain ⟨op', q'', hop', h⟩ := Pass.bind_eq_ok.mp h
    obtain ⟨hres', rfl⟩ := ofResult_eq_ok.mp hop'
    have hop' := operator_eq_ok.mp hres'
    obtain ⟨rfl, rfl⟩ : op'.schema? = s ∧ q' = q := by simpa using h
    obtain ⟨hext, hall⟩ := Extends.forM hp hrun
    refine ⟨hext, ?_⟩
    have := hall id (mem_pendingSchemas (contains_of_operator? hop))
    obtain ⟨t, ht⟩ := Option.isSome_iff_exists.mp this
    rw [memoOf, hop', Option.bind_some] at ht
    rw [memoOf, hop', Option.bind_some, Operator.schema?, ht]
    rfl

/-- An operator whose inputs are derived fails to be derived only by the rule for its schema. -/
theorem deriveOne_fails {e : Error} (hop : p.operator? x = some op)
    (hins : ∀ z ∈ p.dataInputs x, (p.memoOf z).isSome) (h : deriveOne x p = .error e q) :
    op.deriveSchema ((p.dataInputs x).map fun z => (p.memoOf z).join)
      ((p.dataInputs x).map p.nameOf) p.uids = .error e := by
  have hd := (derivedInputs_eq_ok (x := x)).mpr ⟨hins, rfl, rfl⟩
  unfold deriveOne at h
  rw [Pass.bind_of_ok Pass.get_apply, Pass.bind_of_ok (ofResult_eq_ok.mpr ⟨hd, rfl⟩)] at h
  dsimp only at h
  rw [Pass.bind_of_ok (ofResult_eq_ok.mpr ⟨operator_eq_ok.mpr hop, rfl⟩)] at h
  rcases Pass.bind_eq_error.mp h with h | ⟨_, _, -, h⟩
  · exact (ofResult_eq_error.mp h).1
  · simp at h

/-- The schema of some operator cannot be derived from those of its inputs. -/
def Blocked (p : Plan) (e : Error) : Prop :=
  ∃ x op, p.operator? x = some op ∧ (∀ z ∈ p.dataInputs x, (p.memoOf z).isSome) ∧
    op.deriveSchema ((p.dataInputs x).map fun z => (p.memoOf z).join)
      ((p.dataInputs x).map p.nameOf) p.uids = .error e

/-- A request fails only where a schema cannot be derived from those of the inputs. -/
theorem schema_eq_error {e : Error} (hp : p.Coherent) (hwf : p.graph.WellFormed)
    (hac : p.graph.Acyclic) (hid : p.graph.contains id = true) (h : schema id p = .error e q) :
    Extends p q ∧ Blocked q e := by
  obtain ⟨op, hop⟩ := exists_operator? hid
  cases hm : p.memoOf id with
  | some t => rw [schema_of_memo hm] at h; simp at h
  | none =>
    have hmemo : op.memo = none := by simpa [memoOf, hop] using hm
    unfold schema at h
    rw [Pass.bind_of_ok Pass.get_apply,
      Pass.bind_of_ok (ofResult_eq_ok.mpr ⟨operator_eq_ok.mpr hop, rfl⟩), hmemo] at h
    rcases Pass.bind_eq_error.mp h with h | ⟨u, q', hrun, h⟩
    · obtain ⟨before, x, behind, r, hsplit, hbefore, hx⟩ := forM_eq_error h
      obtain rfl := deriveOne_eq_error hx
      obtain ⟨hext, hall⟩ := Extends.forM hp hbefore
      obtain ⟨hcx, hins⟩ := (pendingSchemas_spec hwf hac hid).2 before x behind hsplit
      obtain ⟨opx, hopx⟩ := exists_operator? (p := q) (by rw [hext.alike.contains]; exact hcx)
      have hknown : ∀ z ∈ q.dataInputs x, (q.memoOf z).isSome := fun z hz => by
        rw [hext.alike.dataInputs] at hz
        cases hpend : p.isPending z with
        | true => exact hall z (hins z hz hpend)
        | false => exact hext.isSome (memoOf_isSome_of_not_pending hpend)
      exact ⟨hext, x, opx, hopx, hknown, deriveOne_fails hopx hknown hx⟩
    · exfalso
      rw [Pass.bind_of_ok Pass.get_apply] at h
      obtain ⟨hext, -⟩ := Extends.forM hp hrun
      obtain ⟨op', hop'⟩ := exists_operator? (p := q') (by rw [hext.alike.contains]; exact hid)
      rw [Pass.bind_of_ok (ofResult_eq_ok.mpr ⟨operator_eq_ok.mpr hop', rfl⟩)] at h
      simp at h

/-! ## Passes made of requests -/

/-- Some plan with more derived schemas has an operator whose schema cannot be derived. -/
def Stuck (p : Plan) (e : Error) : Prop := ∃ q, Extends p q ∧ Blocked q e

/-- A pass only asks for schemas: it derives some, gives the same when it is repeated, and fails
only where a schema cannot be derived. -/
def Asks {β : Type} (p : Plan) (ask : Edit β) : Prop :=
  ∀ q, Extends p q →
    (∀ b r, ask q = .ok b r → Extends q r ∧ ∀ t, Extends r t → ask t = .ok b t) ∧
      ∀ e r, ask q = .error e r → Stuck p e

/-- What the requests on a plan rely on. -/
structure Ready (p : Plan) : Prop where
  wellFormed : p.graph.WellFormed
  acyclic : p.graph.Acyclic
  coherent : p.Coherent

theorem Ready.extends (h : p.Ready) (hq : Extends p q) : q.Ready :=
  ⟨hq.alike.wellFormed h.wellFormed, hq.alike.acyclic h.acyclic, hq.coherent⟩

/-- What any plan satisfies that was built by edits while keys lasted. -/
structure Sound (p : Plan) : Prop where
  wellFormed : p.graph.WellFormed
  keysBelow : p.graph.KeysBelow
  formulas : p.FormulasSound
  coherent : p.Coherent

/-- The operator has no derived schema, and its formulas are built by edits. -/
def IsFresh (op : Operator) : Prop := op.memo.isNone = true ∧
  ∀ f ∈ op.operation.formulas, f.graph.WellFormed ∧ f.graph.KeysBelow

instance : Decidable (IsFresh op) := inferInstanceAs (Decidable (_ ∧ _))

theorem formulasSound_of_vertices (h : ∀ x ∈ p.graph.vertices.toList,
    ∀ f ∈ x.2.content.operation.formulas, f.graph.WellFormed ∧ f.graph.KeysBelow) :
    p.FormulasSound := by
  intro id op hop f hf
  obtain ⟨v, hv, rfl⟩ := Option.map_eq_some_iff.mp hop
  obtain ⟨hwf, hkeys⟩ := forall_vertices (P := fun _ v => ∀ f ∈ v.content.operation.formulas,
    f.graph.WellFormed ∧ f.graph.KeysBelow).mp h _ v hv f hf
  exact ⟨hwf, hkeys⟩

/-- A plan without derived schemas is sound if its graphs are well-formed. -/
theorem sound_of_fresh (hwf : p.graph.WellFormed) (hkeys : p.graph.KeysBelow)
    (hops : ∀ x ∈ p.graph.vertices.toList, IsFresh x.2.content) : p.Sound := by
  refine ⟨hwf, hkeys, formulasSound_of_vertices fun x hx => (hops x hx).2, fun id op s hop hs => ?_⟩
  obtain ⟨v, hv, rfl⟩ := Option.map_eq_some_iff.mp hop
  have := (forall_vertices (P := fun _ v => IsFresh v.content).mp hops _ v hv).1
  simp [hs] at this

/-- The plan that a pass makes of the empty one. -/
def made {β : Type} (edit : Edit β) : Plan := Pass.after edit {}

theorem Sound.alike (h : p.Sound) (hq : Alike p q) (hcoh : q.Coherent) : q.Sound :=
  ⟨hq.wellFormed h.wellFormed, hq.keysBelow h.keysBelow, hq.formulasSound h.formulas, hcoh⟩

theorem Sound.extends (h : p.Sound) (hq : Extends p q) : q.Sound := h.alike hq.alike hq.coherent

theorem Sound.ready (h : p.Sound) (hv : p.Valid) : p.Ready :=
  ⟨h.wellFormed, hv.acyclic, h.coherent⟩

theorem Extends.graph_size (h : Extends p q) (hp : p.Ready) : q.size = p.size := by
  unfold Plan.size
  rw [hp.wellFormed.size_eq, (hp.extends h).wellFormed.size_eq, h.alike.ids]

namespace Asks

variable {β γ : Type} {b : β} {ask : Edit β}

theorem pure (_h : p.Ready) : Asks p (pure b : Edit β) := by
  intro q hq
  refine ⟨fun b' r h => ?_, fun e r h => by simp at h⟩
  obtain ⟨rfl, rfl⟩ : b = b' ∧ q = r := by simpa using h
  exact ⟨.refl hq.coherent, fun t _ => rfl⟩

theorem bind (hx : Asks p ask) {f : β → Edit γ}
    (hf : ∀ q b r, Extends p q → ask q = .ok b r → Asks p (f b)) : Asks p (ask >>= f) := by
  intro q hq
  refine ⟨fun c t h => ?_, fun e t h => ?_⟩
  · obtain ⟨b, r, hb, h⟩ := Pass.bind_eq_ok.mp h
    obtain ⟨hext, hagain⟩ := (hx q hq).1 b r hb
    obtain ⟨hext', hagain'⟩ := (hf q b r hq hb r (hq.trans hext)).1 c t h
    refine ⟨hext.trans hext', fun u hu => ?_⟩
    rw [Pass.bind_of_ok (hagain u (hext'.trans hu))]
    exact hagain' u hu
  · rcases Pass.bind_eq_error.mp h with h | ⟨b, r, hb, h⟩
    · exact (hx q hq).2 e t h
    · obtain ⟨hext, -⟩ := (hx q hq).1 b r hb
      exact (hf q b r hq hb r (hq.trans hext)).2 e t h

/-- A pass may read what deriving does not change. -/
theorem read {f : Plan → Edit β} (hf : ∀ q, Extends p q → f q = f p) (h : Asks p (f p)) :
    Asks p (get >>= f) := by
  intro q hq
  have hrun : ∀ t, Extends p t → (get >>= f : Edit β) t = f p t := fun t ht => by
    rw [Pass.bind_of_ok Pass.get_apply, hf t ht]
  rw [hrun q hq]
  obtain ⟨hok, herror⟩ := h q hq
  refine ⟨fun b r hb => ?_, herror⟩
  obtain ⟨hext, hagain⟩ := hok b r hb
  refine ⟨hext, fun t ht => ?_⟩
  rw [hrun t (hq.trans (hext.trans ht))]
  exact hagain t ht

theorem schema (h : p.Ready) (hid : p.graph.contains id = true) : Asks p (schema id) := by
  intro q hq
  have hqr := h.extends hq
  refine ⟨fun s r hs => ?_, fun e r he => ?_⟩
  · obtain ⟨hext, hmemo⟩ := schema_eq_ok hqr.coherent hs
    exact ⟨hext, fun t ht => schema_of_memo (ht.memo id s hmemo)⟩
  · obtain ⟨hext, hblocked⟩ := schema_eq_error hqr.coherent hqr.wellFormed hqr.acyclic
      (by rw [hq.alike.contains]; exact hid) he
    exact ⟨r, hq.trans hext, hblocked⟩

end Asks

/-- Reading what is there and does not change is asking for nothing. -/
theorem Asks.readResult {β γ : Type} {g : Plan → Result β} {k : β → Edit γ} {b : β}
    (hg : ∀ q, Extends p q → g q = .ok b) (hp : p.Coherent) (hk : Asks p (k b)) :
    Asks p (get >>= fun q => ofResult (g q) >>= k) := by
  have hrun : ∀ q, Extends p q → (ofResult (g q) >>= k) = k b := fun q hq => by
    rw [hg q hq]
    rfl
  refine .read (fun q hq => ?_) ?_
  · rw [hrun q hq, hrun p (.refl hp)]
  · rw [hrun p (.refl hp)]
    exact hk

theorem Extends.typeOf (h : Extends p q) {t : OperatorType} (ht : p.HasType id t) :
    q.typeOf id = .ok t := typeOf_eq_ok.mpr (h.alike.symm.hasType ht)

theorem contains_of_mem_dataInputs (h : p.graph.WellFormed) (hx : x ∈ p.dataInputs id) :
    p.graph.contains x = true :=
  h.source (mem_predecessors_of_mem_dataInputs hx)

theorem rank_of_mem_dataInputs (hwf : p.graph.WellFormed) {rank : NodeId → Nat}
    (hrank : ∀ a b, b ∈ p.graph.successors a → rank a < rank b) (hx : x ∈ p.dataInputs id) :
    rank x < rank id :=
  hrank x id ((hwf.edge x id).mpr (mem_predecessors_of_mem_dataInputs hx))

theorem Asks.columnUid (h : p.Ready) {input column : Nat} :
    Asks p (columnUid id input column) := by
  unfold Plan.columnUid
  refine .read (fun q hq => by rw [hq.alike.dataInputs]) ?_
  cases hx : (p.dataInputs id)[input]? with
  | none => exact .pure h
  | some x =>
    exact (Asks.schema h (contains_of_mem_dataInputs h.wellFormed
      (List.mem_of_getElem? hx))).bind fun _ _ _ _ _ => .pure h

theorem Asks.columnUids (h : p.Ready) : ∀ {columns : List (Nat × Nat)} {uids : List Uid},
    Asks p (columnUids id columns uids)
  | [], _ => .pure h
  | (input, column) :: rest, uids => by
    unfold Plan.columnUids
    refine (Asks.columnUid h).bind fun _ uid? _ _ _ => ?_
    cases uid? with
    | none => exact .pure h
    | some uid => exact Asks.columnUids h

/-! ## Identities of columns -/

/-- The column is there, in a derived schema, and has the identity. -/
def ColumnHas (p : Plan) (owner : NodeId) (input column : Nat) (uid : Uid) : Prop :=
  ∃ x s field, (p.dataInputs owner)[input]? = some x ∧ p.memoOf x = some (some s) ∧
    s[column]? = some field ∧ field.uid = uid

theorem ColumnHas.extends {i j : Nat} {uid : Uid} (h : p.ColumnHas id i j uid)
    (hq : Extends p q) : q.ColumnHas id i j uid := by
  obtain ⟨x, s, field, hx, hs, hfield⟩ := h
  exact ⟨x, s, field, by rwa [hq.alike.dataInputs], hq.memo x _ hs, hfield⟩

theorem columnUid_eq_ok {i j : Nat} {uid : Uid} (hp : p.Coherent)
    (h : columnUid id i j p = .ok (some uid) q) : Extends p q ∧ q.ColumnHas id i j uid := by
  unfold columnUid at h
  rw [Pass.bind_of_ok Pass.get_apply] at h
  cases hx : (p.dataInputs id)[i]? with
  | none => simp [hx] at h
  | some x =>
    simp only [hx] at h
    obtain ⟨s, q', hs, h⟩ := Pass.bind_eq_ok.mp h
    obtain ⟨hext, hmemo⟩ := schema_eq_ok hp hs
    simp only [Pass.pure_apply, EStateM.Result.ok.injEq, Option.map_eq_some_iff,
      Option.bind_eq_bind, Option.bind_eq_some_iff] at h
    obtain ⟨⟨field, ⟨t, rfl, hfield⟩, huid⟩, rfl⟩ := h
    exact ⟨hext, x, t, field, by rwa [hext.alike.dataInputs], hmemo, hfield, huid⟩

end Dataflow.Plan

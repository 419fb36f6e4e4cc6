import Dataflow.Proofs.Plan.Requests

/-!
# Requests agree with deriving anew

`rederive` is the recursion that the definition of output schemas suggests: the schemas of the
inputs first, in order, whether or not they were derived before. It remembers no schema, only the
identities that unions have chosen. A request for a schema remembers and uses what was derived
before, and walks over the inputs with an explicit stack; on a plan without cycles whose derived
schemas are coherent it ends exactly like the recursion (`schema_endsAlike`). The walk first:
working it off is asking for the schema of every operator to be entered (`Leaving.forM_postOrder`),
so that a request is one request for each input, followed by the operator itself (`discard_schema`).
-/

namespace Dataflow.Plan

open Dataflow.Graph

variable {p p' q q' : Plan} {id x y z : NodeId} {op : Operator} {s : Option Schema}
  {stack : List Visit} {entered done : List NodeId} {rank : NodeId → Nat}

/-! ## The recursion -/

/-- The plan with what deriving a schema leaves behind, the schema apart. -/
def withOperation (p : Plan) (id : NodeId) (o : Operation) (supply : UidSupply) : Plan :=
  { uids := supply, graph := p.graph.update id fun op => { op with operation := o } }

theorem operator?_withOperation {o : Operation} {supply : UidSupply} :
    (p.withOperation id o supply).operator? x =
      if x = id then (p.operator? x).map fun op => { op with operation := o } else p.operator? x :=
  content?_update

/-- The schema of an operator, derived anew from those of its inputs, down to so many levels. Of
what is derived on the way, only the identities that unions have chosen stay in the plan. -/
def rederive : Nat → NodeId → Edit (Option Schema)
  | 0, id => throw (.graph (.unknownNode id))
  | n + 1, id => do
    let schemas ← ((← get).dataInputs id).mapM (rederive n)
    let p ← get
    let op ← ofResult (p.operator id)
    let (schema, operation, uids) ←
      ofResult (op.deriveSchema schemas ((p.dataInputs id).map p.nameOf) p.uids)
    set (p.withOperation id operation uids)
    return schema

/-! ## Plans that agree but for derived schemas -/

/-- The plans differ in their derived schemas only; the identities of unions are the same. -/
structure Agrees (p q : Plan) : Prop extends Alike p q where
  uids : q.uids = p.uids
  forget : ∀ z, (q.operator? z).map Operator.forget = (p.operator? z).map Operator.forget

theorem Agrees.refl : Agrees p p := ⟨.refl, rfl, fun _ => rfl⟩

theorem Agrees.trans {r : Plan} (h : Agrees p q) (h' : Agrees q r) : Agrees p r :=
  ⟨h.toAlike.trans h'.toAlike, h'.uids.trans h.uids, fun z => (h'.forget z).trans (h.forget z)⟩

theorem Agrees.operator? (h : Agrees p q) (hop : p.operator? id = some op) :
    ∃ op', q.operator? id = some op' ∧ op'.forget = op.forget := by
  have := h.forget id
  rw [hop] at this
  exact Option.map_eq_some_iff.mp this

/-- Two passes end alike if they end with the same value, or the same error, and leave plans behind
that differ in derived schemas only. -/
def EndsAlike {β : Type} : EStateM.Result Error Plan β → EStateM.Result Error Plan β → Prop
  | .ok a p, .ok b q => a = b ∧ Agrees p q
  | .error e p, .error e' q => e = e' ∧ Agrees p q
  | _, _ => False

/-- Deriving a schema looks at the operation and the name of an operator only. -/
theorem deriveSchema_congr {op' : Operator} (h : op'.forget = op.forget) {inputs : Expr.Inputs}
    {names : List (Option String)} {supply : UidSupply} :
    op'.deriveSchema inputs names supply = op.deriveSchema inputs names supply := by
  change op'.forget.deriveSchema inputs names supply = op.forget.deriveSchema inputs names supply
  rw [h]

/-- What deriving leaves behind, with the schema and without it. -/
theorem Agrees.withOperation (h : Agrees p q) {o : Operation} {supply : UidSupply} :
    Agrees (p.withSchema id s o supply) (q.withOperation id o supply) := by
  have hforget : ∀ z, ((q.withOperation id o supply).operator? z).map Operator.forget =
      ((p.withSchema id s o supply).operator? z).map Operator.forget := fun z => by
    have hz := h.forget z
    rw [operator?_withSchema, operator?_withOperation]
    split
    · cases hp : p.operator? z with
      | none => simp_all
      | some op =>
        obtain ⟨op', hop', heq⟩ := h.operator? hp
        have hname : op'.name = op.name := congrArg (fun op => op.name) heq
        simp [hop', Operator.forget, hname]
    · exact hz
  refine ⟨⟨h.ids, h.nextKey, fun z => ?_, fun z => ?_, fun z => ?_⟩, rfl, hforget⟩
  · exact successors_update.trans ((h.successors z).trans successors_update.symm)
  · exact predecessors_update.trans ((h.predecessors z).trans predecessors_update.symm)
  · have := congrArg (Option.map Operator.core) (hforget z)
    simpa only [Option.map_map, Function.comp_def, Operator.core_forget] using this

/-- Deriving again what is derived already changes nothing else. -/
theorem agrees_withSchema (hop : p.operator? id = some op) :
    Agrees p (p.withSchema id s op.operation p.uids) := by
  have hforget : ∀ z, ((p.withSchema id s op.operation p.uids).operator? z).map Operator.forget =
      (p.operator? z).map Operator.forget := fun z => by
    rw [operator?_withSchema]
    split
    · subst z; simp [hop, Operator.forget]
    · rfl
  refine ⟨⟨rfl, rfl, fun z => successors_update, fun z => predecessors_update, fun z => ?_⟩, rfl,
    hforget⟩
  have := congrArg (Option.map Operator.core) (hforget z)
  simpa only [Option.map_map, Function.comp_def, Operator.core_forget] using this

/-! ## Working off the stack -/

/-- What working off an entry of the stack comes to. -/
def visit : Visit → Edit Unit
  | .enter x => discard (schema x)
  | .leave x => deriveOne x

theorem isPending_eq : p.isPending x = (p.memoOf x).isNone := by
  unfold isPending memoOf
  cases p.operator? x with
  | none => rfl
  | some op => cases h : op.memo <;> simp [Operator.isDerived, h]

/-- Asking for a schema that is not derived is deriving what is pending. -/
theorem discard_schema_pending (hp : p.Coherent) (hid : p.graph.contains id = true)
    (hm : p.memoOf id = none) :
    discard (schema id) p = (p.pendingSchemas id).forM deriveOne p := by
  obtain ⟨op, hop⟩ := exists_operator? hid
  have hmemo : op.memo = none := by simpa [memoOf, hop] using hm
  have hrun : schema id p = ((p.pendingSchemas id).forM deriveOne >>= fun _ => do
      return (← ofResult ((← get).operator id)).schema?) p := by
    unfold schema
    rw [Pass.bind_of_ok Pass.get_apply,
      Pass.bind_of_ok (ofResult_eq_ok.mpr ⟨operator_eq_ok.mpr hop, rfl⟩), hmemo]
  cases h : (p.pendingSchemas id).forM deriveOne p with
  | ok u q =>
    obtain ⟨op', hop'⟩ := exists_operator? (show q.graph.contains id = true by
      rw [(Extends.forM hp h).1.alike.contains]; exact hid)
    refine Pass.discard_eq_ok.mpr ⟨op'.schema?, ?_⟩
    rw [hrun, Pass.bind_of_ok h, Pass.bind_of_ok Pass.get_apply,
      Pass.bind_of_ok (ofResult_eq_ok.mpr ⟨operator_eq_ok.mpr hop', rfl⟩)]
    rfl
  | error e q =>
    have hfail : schema id p = .error e q := by
      rw [hrun]; exact Pass.bind_eq_error.mpr (.inl h)
    exact Pass.discard_eq_error.mpr hfail

/-- The state of a walk that derives what it leaves: `q` is `p` with the schemas derived so far, and
the operators that are still to be entered have no derived schema in `p` and a rank below `n`. -/
structure Working (p q : Plan) (rank : NodeId → Nat) (n : Nat) (stack : List Visit)
    (entered done : List NodeId) : Prop where
  leaving : Leaving p rank stack entered done
  derives : Extends p q
  derived : ∀ x, (q.memoOf x).isSome ↔ (p.memoOf x).isSome ∨ x ∈ done
  done : ∀ x ∈ done, x ∈ entered
  leaves : ∀ x, .leave x ∈ stack → x ∈ entered
  enters : ∀ x, .enter x ∈ stack →
    rank x < n ∧ p.isPending x = true ∧ p.graph.contains x = true

namespace Working

variable {n : Nat} {rest : List Visit} {v : Vertex Operator}

theorem start (hp : p.Coherent) (hid : p.graph.contains id = true) (hm : p.memoOf id = none)
    (hn : rank id < n) : Working p p rank n [.enter id] [] [] where
  leaving := .start
  derives := .refl hp
  derived := by simp
  done := by simp
  leaves := by simp
  enters := by simpa [isPending_eq, hm] using ⟨hn, hid⟩

theorem skip (hwf : p.graph.WellFormed) (h : Working p q rank n (.enter id :: rest) entered done)
    (hid : id ∈ entered) : Working p q rank n rest entered done where
  leaving := h.leaving.skip hwf (.inr hid)
  derives := h.derives
  derived := h.derived
  done := h.done
  leaves x hx := h.leaves x (List.mem_cons_of_mem _ hx)
  enters x hx := h.enters x (List.mem_cons_of_mem _ hx)

theorem leave {u : Unit} (h : Working p q rank n (.leave id :: rest) entered done)
    (hrun : deriveOne id q = .ok u q') : Working p q' rank n rest entered (done ++ [id]) where
  leaving := h.leaving.leave
  derives := h.derives.trans (Extends.deriveOne h.derives.coherent hrun).1
  derived x := by
    obtain ⟨op, s, o, supply, hop, -, -, rfl⟩ := deriveOne_eq_ok.mp hrun
    rw [memoOf_withSchema hop]
    by_cases hx : x = id
    · simp [hx]
    · simp [hx, h.derived x]
  done x hx := by
    rcases List.mem_append.mp hx with hx | hx
    · exact h.done x hx
    · obtain rfl := List.mem_singleton.mp hx
      exact h.leaves x (by simp)
  leaves x hx := h.leaves x (List.mem_cons_of_mem _ hx)
  enters x hx := h.enters x (List.mem_cons_of_mem _ hx)

theorem enter (hwf : p.graph.WellFormed)
    (hrank : ∀ a b, b ∈ p.graph.successors a → rank a < rank b)
    (h : Working p q rank n (.enter id :: rest) entered done)
    (hv : p.graph.vertices[id]? = some v) :
    Working p q rank n ((p.toEnter (id :: entered) v).map Visit.enter ++ .leave id :: rest)
      (id :: entered) done where
  leaving := h.leaving.enter hwf hrank hv
  derives := h.derives
  derived := h.derived
  done x hx := List.mem_cons_of_mem _ (h.done x hx)
  leaves x hx := by
    rcases List.mem_append.mp hx with hx | hx
    · simp at hx
    · rcases List.mem_cons.mp hx with heq | hx
      · obtain rfl := Visit.leave.inj heq
        simp
      · exact List.mem_cons_of_mem _ (h.leaves x (List.mem_cons_of_mem _ hx))
  enters x hx := by
    rcases List.mem_append.mp hx with hx | hx
    · obtain ⟨y, hy, heq⟩ := List.mem_map.mp hx
      obtain rfl := Visit.enter.inj heq
      obtain ⟨hmem, hcond⟩ := List.mem_filter.mp hy
      rw [dataIns_eq hv] at hmem
      have hedge := (hwf.edge y id).mpr (mem_predecessors_of_mem_dataInputs hmem)
      refine ⟨Nat.lt_trans (hrank y id hedge) (h.enters id (by simp)).1, ?_,
        contains_of_mem_successors hedge⟩
      simpa using (Bool.and_eq_true_iff.mp hcond).2
    · exact h.enters x (List.mem_cons_of_mem _ (by simpa using hx))

/-- What is entered next is what a walk of its own would enter. -/
theorem toEnter_eq (hwf : p.graph.WellFormed)
    (hrank : ∀ a b, b ∈ p.graph.successors a → rank a < rank b)
    (h : Working p q rank n (.enter id :: rest) entered done) {w : Vertex Operator}
    (hv : p.graph.vertices[id]? = some v) (hw : q.graph.vertices[id]? = some w) :
    p.toEnter (id :: entered) v = q.toEnter [id] w := by
  have hins : dataIns w = dataIns v := by
    rw [dataIns_eq hw, dataIns_eq hv, h.derives.alike.dataInputs]
  unfold toEnter
  rw [hins]
  refine List.filter_congr fun x hx => ?_
  rw [dataIns_eq hv] at hx
  have hlt := hrank x id ((hwf.edge x id).mpr (mem_predecessors_of_mem_dataInputs hx))
  have hdone : x ∈ entered ↔ x ∈ done :=
    ⟨fun hmem => h.leaving.done_of_entered hmem (Nat.le_of_lt hlt), h.done x⟩
  have hderived := h.derived x
  rw [isPending_eq, isPending_eq, Bool.eq_iff_iff]
  cases hq : q.memoOf x <;> cases hp : p.memoOf x <;> simp_all

/-- Working off the stack is asking for the schema of every operator to be entered, and deriving
every operator to be left. -/
theorem forM_postOrder (hwf : p.graph.WellFormed)
    (hrank : ∀ a b, b ∈ p.graph.successors a → rank a < rank b)
    (h : Working p q rank n stack entered done) :
    (p.postOrder stack entered).forM deriveOne q = stack.forM visit q := by
  -- the outer induction is for the walk of a request, the inner one for the rest of this walk
  induction n using Nat.strongRecOn generalizing p q stack entered done with
  | ind n ihn =>
  induction stack, entered using postOrder.induct (p := p) generalizing q done with
  | case1 entered => rw [postOrder]; rfl
  | case2 entered id rest ih =>
    rw [postOrder, Pass.forM_cons, Pass.forM_cons]
    exact Pass.bind_congr rfl fun u q' hrun => ih (h.leave hrun)
  | case3 entered id rest hv ih =>
    have := (h.enters id (by simp)).2.2
    simp [contains_eq, hv] at this
  | case4 entered id rest v hv hmem ih =>
    have hdone : id ∈ done := h.leaving.done_of_entered hmem (Nat.le_refl _)
    obtain ⟨s, hs⟩ := Option.isSome_iff_exists.mp ((h.derived id).mpr (.inr hdone))
    have hvisit : visit (.enter id) q = .ok () q :=
      Pass.discard_eq_ok.mpr ⟨s, schema_of_memo hs⟩
    rw [postOrder_skip (.inr hmem), Pass.forM_cons, Pass.bind_of_ok hvisit]
    exact ih (h.skip hwf hmem)
  | case5 entered id rest v hv hmem ih =>
    obtain ⟨hn, hpend, hid⟩ := h.enters id (by simp)
    have hidq : q.graph.contains id = true := by rw [h.derives.alike.contains]; exact hid
    have hmq : q.memoOf id = none := by
      rw [← Option.not_isSome_iff_eq_none, h.derived, not_or]
      exact ⟨by simpa [isPending_eq] using hpend, fun hd => hmem (h.done id hd)⟩
    obtain ⟨w, hw⟩ := exists_vertex hidq
    have hwfq := h.derives.alike.wellFormed hwf
    have hrankq : ∀ a b, b ∈ q.graph.successors a → rank a < rank b := fun a b hb =>
      hrank a b (by rwa [← h.derives.alike.successors])
    have hown := (Working.start h.derives.coherent hidq hmq (Nat.lt_succ_self (rank id))).enter
      hwfq hrankq hw
    have hrequest : discard (schema id) q =
        ((q.toEnter [id] w).map Visit.enter ++ [Visit.leave id]).forM visit q := by
      rw [discard_schema_pending h.derives.coherent hidq hmq, pendingSchemas,
        postOrder_enter hw (by simp)]
      refine ihn (rank id) hn hwfq hrankq { hown with enters := fun x hx => ?_ }
      have hx' : .enter x ∈ (q.toEnter [id] w).map Visit.enter := by simpa using hx
      obtain ⟨y, hy, heq⟩ := List.mem_map.mp hx'
      obtain rfl := Visit.enter.inj heq
      refine ⟨?_, (hown.enters y hx).2⟩
      have hmem := (List.mem_filter.mp hy).1
      rw [dataIns_eq hw] at hmem
      exact hrankq y id ((hwfq.edge y id).mpr (mem_predecessors_of_mem_dataInputs hmem))
    rw [postOrder_enter hv hmem, ih (h.enter hwf hrank hv), h.toEnter_eq hwf hrank hv hw,
      Pass.forM_cons, List.append_cons, Pass.forM_append]
    exact Pass.bind_congr hrequest.symm fun _ _ _ => rfl

end Working

/-! ## A request is one for each input -/

/-- Only what is not derived yet has to be asked for. -/
theorem forM_filter_pending {f : NodeId → Bool} : ∀ {l : List NodeId} {q : Plan}, Extends p q →
    (∀ x ∈ l, f x = false → (p.memoOf x).isSome) →
    (l.filter f).forM (fun x => discard (schema x)) q = l.forM (fun x => discard (schema x)) q
  | [], _, _, _ => rfl
  | a :: l, q, hq, hl => by
    cases hf : f a with
    | true =>
      rw [List.filter_cons_of_pos hf, Pass.forM_cons, Pass.forM_cons]
      refine Pass.bind_congr rfl fun u t hrun => ?_
      obtain ⟨s, hs⟩ := Pass.discard_eq_ok.mp hrun
      exact forM_filter_pending (hq.trans (schema_eq_ok hq.coherent hs).1) fun x hx =>
        hl x (List.mem_cons_of_mem _ hx)
    | false =>
      obtain ⟨s, hs⟩ := Option.isSome_iff_exists.mp (hl a (by simp) hf)
      have hask : (discard (schema a) : Edit Unit) q = .ok () q :=
        Pass.discard_eq_ok.mpr ⟨s, schema_of_memo (hq.memo a s hs)⟩
      rw [List.filter_cons_of_neg (by simp [hf]), Pass.forM_cons, Pass.bind_of_ok hask]
      exact forM_filter_pending hq fun x hx => hl x (List.mem_cons_of_mem _ hx)

theorem forM_map_enter : ∀ l : List NodeId,
    (l.map Visit.enter).forM visit = l.forM fun x => discard (schema x)
  | [] => rfl
  | a :: l => by rw [List.map_cons, Pass.forM_cons, Pass.forM_cons, forM_map_enter l]; rfl

/-- Asking for a schema that is not derived is asking for those of the inputs and deriving it. -/
theorem discard_schema (hp : p.Ready) (hid : p.graph.contains id = true)
    (hm : p.memoOf id = none) : discard (schema id) p =
      ((p.dataInputs id).forM (fun x => discard (schema x)) >>= fun _ => deriveOne id) p := by
  obtain ⟨rank, hrank⟩ := hp.acyclic
  obtain ⟨v, hv⟩ := exists_vertex hid
  have hwork := Working.start hp.coherent hid hm (Nat.lt_succ_self (rank id))
  have hpending : ((p.toEnter [id] v).forM fun x => discard (schema x)) p =
      ((p.dataInputs id).forM fun x => discard (schema x)) p := by
    rw [toEnter, dataIns_eq hv]
    refine forM_filter_pending (.refl hp.coherent) fun x hx hf => ?_
    have hne : x ≠ id := by
      rintro rfl
      exact hp.wellFormed.ne_of_edge ((hp.wellFormed.edge x x).mpr
        (mem_predecessors_of_mem_dataInputs hx)) rfl
    exact memoOf_isSome_of_not_pending (by simpa [hne] using hf)
  rw [discard_schema_pending hp.coherent hid hm, pendingSchemas, postOrder_enter hv (by simp),
    (hwork.enter hp.wellFormed hrank hv).forM_postOrder hp.wellFormed hrank, Pass.forM_append,
    forM_map_enter]
  refine Pass.bind_congr hpending fun u q _ => ?_
  exact congrFun (bind_pure_unit (x := deriveOne id)) q

/-! ## Requests and the recursion -/

section Agreement

variable {n : Nat} {e : Error} {l : List NodeId}

theorem deriveOne_eq (hop : p.operator? id = some op)
    (hins : ∀ x ∈ p.dataInputs id, (p.memoOf x).isSome) : deriveOne id p =
      match op.deriveSchema ((p.dataInputs id).map fun x => (p.memoOf x).join)
        ((p.dataInputs id).map p.nameOf) p.uids with
      | .ok (s, o, supply) => .ok () (p.withSchema id s o supply)
      | .error e => .error e p := by
  unfold deriveOne
  rw [Pass.bind_of_ok Pass.get_apply,
    Pass.bind_of_ok (ofResult_eq_ok.mpr ⟨derivedInputs_eq_ok.mpr ⟨hins, rfl, rfl⟩, rfl⟩)]
  dsimp only
  rw [Pass.bind_of_ok (ofResult_eq_ok.mpr ⟨operator_eq_ok.mpr hop, rfl⟩)]
  cases op.deriveSchema ((p.dataInputs id).map fun x => (p.memoOf x).join)
    ((p.dataInputs id).map p.nameOf) p.uids <;> rfl

/-- What the recursion does once the inputs are derived, in terms of a plan that agrees. -/
theorem rederive_succ {schemas : List (Option Schema)} (h : Agrees q q')
    (hins : (p'.dataInputs id).mapM (rederive n) p' = .ok schemas q')
    (hop : q.operator? id = some op) : rederive (n + 1) id p' =
      match op.deriveSchema schemas ((q.dataInputs id).map q.nameOf) q.uids with
      | .ok (s, o, supply) => .ok s (q'.withOperation id o supply)
      | .error e => .error e q' := by
  obtain ⟨op', hop', heq⟩ := h.operator? hop
  have hnames : (q'.dataInputs id).map q'.nameOf = (q.dataInputs id).map q.nameOf := by
    rw [h.toAlike.dataInputs]
    exact List.map_congr_left fun x _ => h.toAlike.nameOf
  rw [rederive, Pass.bind_of_ok Pass.get_apply, Pass.bind_of_ok hins,
    Pass.bind_of_ok Pass.get_apply,
    Pass.bind_of_ok (ofResult_eq_ok.mpr ⟨operator_eq_ok.mpr hop', rfl⟩),
    hnames, h.uids, deriveSchema_congr heq]
  cases op.deriveSchema schemas ((q.dataInputs id).map q.nameOf) q.uids <;> rfl

/-- How asking for the schemas of inputs and deriving them anew compare: both give the same, or both
stop with the same error. -/
def InputsAlike (p : Plan) (l : List NodeId) : EStateM.Result Error Plan Unit →
    EStateM.Result Error Plan (List (Option Schema)) → Prop
  | .ok _ q, .ok schemas q' => Extends p q ∧ Agrees q q' ∧ (∀ x ∈ l, (q.memoOf x).isSome) ∧
      schemas = l.map fun x => (q.memoOf x).join
  | .error e q, .error e' q' => e = e' ∧ Agrees q q'
  | _, _ => False

theorem inputsAlike : ∀ {l : List NodeId} {p p' : Plan}, p.Ready → Agrees p p' →
    (∀ x ∈ l, ∀ {q q' : Plan}, Extends p q → Agrees q q' →
      EndsAlike (schema x q) (rederive n x q')) →
    InputsAlike p l (l.forM (fun x => discard (schema x)) p) (l.mapM (rederive n) p')
  | [], p, p', hp, h, _ => ⟨.refl hp.coherent, h, by simp, rfl⟩
  | a :: l, p, p', hp, h, hone => by
    have ha := hone a (by simp) (.refl hp.coherent) h
    rw [List.mapM_cons, Pass.forM_cons]
    cases hs : schema a p with
    | error e q =>
      rw [hs] at ha
      cases hr : rederive n a p' with
      | ok s q' => rw [hr] at ha; exact ha.elim
      | error e' q' =>
        rw [hr] at ha
        have hleft : (discard (schema a) : Edit Unit) p = .error e q :=
          Pass.discard_eq_error.mpr hs
        rw [Pass.bind_eq_error.mpr (.inl hleft), Pass.bind_eq_error.mpr (.inl hr)]
        exact ha
    | ok s q =>
      rw [hs] at ha
      cases hr : rederive n a p' with
      | error e' q' => rw [hr] at ha; exact ha.elim
      | ok s' q' =>
        rw [hr] at ha
        obtain ⟨rfl, hq⟩ := ha
        obtain ⟨hext, hmemo⟩ := schema_eq_ok hp.coherent hs
        have hrest := inputsAlike (hp.extends hext) hq fun x hx t t' ht =>
          hone x (List.mem_cons_of_mem _ hx) (hext.trans ht)
        rw [Pass.bind_of_ok (Pass.discard_eq_ok (u := ()).mpr ⟨s, hs⟩), Pass.bind_of_ok hr]
        cases hf : l.forM (fun x => discard (schema x)) q with
        | error e t =>
          rw [hf] at hrest
          cases hm : l.mapM (rederive n) q' with
          | ok ss t' => rw [hm] at hrest; exact hrest.elim
          | error e' t' =>
            rw [hm] at hrest
            rw [Pass.bind_eq_error.mpr (.inl hm)]
            exact hrest
        | ok u t =>
          rw [hf] at hrest
          cases hm : l.mapM (rederive n) q' with
          | error e' t' => rw [hm] at hrest; exact hrest.elim
          | ok ss t' =>
            rw [hm] at hrest
            obtain ⟨hext', ht, hall, rfl⟩ := hrest
            have hat := hext'.memo a s hmemo
            rw [Pass.bind_of_ok hm]
            refine ⟨hext.trans hext', ht, fun x hx => ?_, by simp [hat]⟩
            rcases List.mem_cons.mp hx with rfl | hx
            · rw [hat]; rfl
            · exact hall x hx

theorem operator?_of_missing (h : p.graph.contains id = false) : p.operator? id = none := by
  have hnone : (p.graph.content? id).isSome = false := content?_isSome.trans h
  exact Option.not_isSome_iff_eq_none.mp (by simp [Plan.operator?, hnone])

theorem operator_of_missing (h : p.graph.contains id = false) :
    ofResult (p.operator id) p = .error (.graph (.unknownNode id)) p := by
  have hnone : p.graph.content? id = none := operator?_of_missing h
  unfold Plan.operator Graph.content
  rw [hnone]
  rfl

/-- Asking for schemas that are derived changes nothing. -/
theorem forM_derived (hp : p.Coherent) (hl : ∀ x ∈ l, (p.memoOf x).isSome) :
    l.forM (fun x => discard (schema x)) p = .ok () p := by
  have := forM_filter_pending (f := fun _ => false) (.refl hp) fun x hx _ => hl x hx
  rw [← this, List.filter_false]
  rfl

theorem schema_of_missing (h : p.graph.contains id = false) :
    schema id p = .error (.graph (.unknownNode id)) p := by
  unfold schema
  rw [Pass.bind_of_ok Pass.get_apply]
  exact Pass.bind_eq_error.mpr (.inl (operator_of_missing h))

/-- Where a schema was derived, the recursion gives the same and leaves nothing else behind. -/
theorem endsAlike_of_derived (hp : p.Coherent) (h : Agrees p p') (hm : p.memoOf id = some s)
    (hinputs : InputsAlike p (p.dataInputs id)
      ((p.dataInputs id).forM (fun x => discard (schema x)) p)
      ((p.dataInputs id).mapM (rederive n) p')) :
    EndsAlike (schema id p) (rederive (n + 1) id p') := by
  obtain ⟨op, hop, hmemo⟩ := Option.bind_eq_some_iff.mp hm
  obtain ⟨hall, hagain⟩ := hp id op s hop hmemo
  rw [forM_derived hp hall] at hinputs
  rw [schema_of_memo hm]
  cases hr : (p.dataInputs id).mapM (rederive n) p' with
  | error e q' => rw [hr] at hinputs; exact hinputs.elim
  | ok schemas q' =>
    rw [hr] at hinputs
    obtain ⟨-, hq', -, rfl⟩ := hinputs
    rw [rederive_succ hq' (by rw [h.toAlike.dataInputs]; exact hr) hop, hagain]
    exact ⟨rfl, (agrees_withSchema (s := s) hop).trans hq'.withOperation⟩

/-- Where a schema was not derived, both derive those of the inputs first. -/
theorem endsAlike_of_pending (hp : p.Ready) (h : Agrees p p') (hid : p.graph.contains id = true)
    (hm : p.memoOf id = none) (hinputs : InputsAlike p (p.dataInputs id)
      ((p.dataInputs id).forM (fun x => discard (schema x)) p)
      ((p.dataInputs id).mapM (rederive n) p')) :
    EndsAlike (schema id p) (rederive (n + 1) id p') := by
  have hrequest := discard_schema hp hid hm
  cases hf : (p.dataInputs id).forM (fun x => discard (schema x)) p with
  | error e q =>
    rw [hf] at hinputs
    rw [Pass.bind_eq_error.mpr (.inl hf)] at hrequest
    rw [Pass.discard_eq_error.mp hrequest]
    cases hr : (p.dataInputs id).mapM (rederive n) p' with
    | ok schemas q' => rw [hr] at hinputs; exact hinputs.elim
    | error e' q' =>
      rw [hr] at hinputs
      rw [← h.toAlike.dataInputs] at hr
      rw [rederive, Pass.bind_of_ok Pass.get_apply, Pass.bind_eq_error.mpr (.inl hr)]
      exact hinputs
  | ok u q =>
    rw [hf] at hinputs
    rw [Pass.bind_of_ok hf] at hrequest
    cases hr : (p.dataInputs id).mapM (rederive n) p' with
    | error e q' => rw [hr] at hinputs; exact hinputs.elim
    | ok schemas q' =>
      rw [hr] at hinputs
      obtain ⟨hext, hq', hall, rfl⟩ := hinputs
      rw [← hext.alike.dataInputs] at hall
      obtain ⟨op, hop⟩ := exists_operator? (show q.graph.contains id = true by
        rw [hext.alike.contains]; exact hid)
      rw [deriveOne_eq hop hall, hext.alike.dataInputs] at hrequest
      rw [rederive_succ hq' (by rw [h.toAlike.dataInputs]; exact hr) hop, hext.alike.dataInputs]
      cases hd : op.deriveSchema ((p.dataInputs id).map fun x => (q.memoOf x).join)
        ((p.dataInputs id).map q.nameOf) q.uids with
      | error e =>
        rw [hd] at hrequest
        rw [Pass.discard_eq_error.mp hrequest]
        exact ⟨rfl, hq'⟩
      | ok r =>
        obtain ⟨s, o, supply⟩ := r
        rw [hd] at hrequest
        obtain ⟨t, ht⟩ := Pass.discard_eq_ok.mp hrequest
        have hmemo := (schema_eq_ok hp.coherent ht).2
        rw [memoOf_withSchema hop, if_pos rfl] at hmemo
        rw [ht]
        exact ⟨(Option.some.inj hmemo).symm, hq'.withOperation⟩

/-- A request ends like the recursion, if that may go down far enough. -/
theorem schema_endsAlike_of_rank (hp : p.Ready) (h : Agrees p p')
    (hrank : ∀ a b, b ∈ p.graph.successors a → rank a < rank b)
    (hid : p.graph.contains id = true → rank id < n) :
    EndsAlike (schema id p) (rederive n id p') := by
  induction n generalizing p p' id with
  | zero =>
    have hmissing : p.graph.contains id = false := by
      by_contra hc
      exact Nat.not_lt_zero _ (hid (by simpa using hc))
    rw [schema_of_missing hmissing]
    exact ⟨rfl, h⟩
  | succ n ih =>
    cases hc : p.graph.contains id with
    | false =>
      have hmissing : p'.graph.contains id = false := by rw [h.contains, hc]
      have hins : p'.dataInputs id = [] := by
        rw [dataInputs_eq, operator?_of_missing hmissing]
      rw [schema_of_missing hc, rederive, Pass.bind_of_ok Pass.get_apply, hins, List.mapM_nil,
        Pass.bind_of_ok Pass.pure_apply, Pass.bind_of_ok Pass.get_apply,
        Pass.bind_eq_error.mpr (.inl (operator_of_missing hmissing))]
      exact ⟨rfl, h⟩
    | true =>
      have hinputs := inputsAlike (l := p.dataInputs id) (n := n) hp h fun x hx q q' hq hqq' => by
        have hedge := (hp.wellFormed.edge x id).mpr (mem_predecessors_of_mem_dataInputs hx)
        exact ih (hp.extends hq) hqq' (fun a b hb => hrank a b (by rwa [← hq.alike.successors]))
          fun _ => Nat.lt_of_lt_of_le (hrank x id hedge) (Nat.le_of_lt_succ (hid hc))
      cases hm : p.memoOf id with
      | some s => exact endsAlike_of_derived hp.coherent h hm hinputs
      | none => exact endsAlike_of_pending hp h hc hm hinputs

/-- On a plan without cycles whose derived schemas are coherent, a request ends like the recursion
over all inputs, for which as many levels are enough as there are operators. -/
theorem schema_endsAlike (hp : p.Ready) (id : NodeId) :
    EndsAlike (schema id p) (rederive p.size id p) := by
  obtain ⟨rank, hrank, hbound⟩ := hp.acyclic.bounded hp.wellFormed
  exact schema_endsAlike_of_rank hp .refl hrank (hbound id)

end Agreement

end Dataflow.Plan

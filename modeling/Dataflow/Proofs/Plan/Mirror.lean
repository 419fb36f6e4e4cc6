import Dataflow.Proofs.Graph.Reach
import Dataflow.Proofs.Plan.Coherent
import Dataflow.Proofs.Plan.Rederive

/-!
# Parts of plans under other keys

A schema depends on nothing but the operator and what leads to it. So where a part of a plan that is
closed against the edges is found again in another plan under other keys (`Mirrors`), requests for
schemas go the same way on both, each taking the same identities from the supply (`Mirrors.schema`).
The walk that orders the operators to be derived is followed entry by entry, and deriving one
operator leaves the part mirrored.
-/

namespace Dataflow

namespace Pass

variable {ε σ τ α β : Type} {R S : σ → τ → Prop}

/-- Two passes end together if both end with the same value, or both with the same error, and the
states that they leave behind are related. -/
def EndsTogether (R : σ → τ → Prop) : EStateM.Result ε σ α → EStateM.Result ε τ α → Prop
  | .ok a s, .ok b t => a = b ∧ R s t
  | .error e s, .error f t => e = f ∧ R s t
  | _, _ => False

theorem EndsTogether.bind {x : EStateM ε σ α} {y : EStateM ε τ α} {f : α → EStateM ε σ β}
    {g : α → EStateM ε τ β} {s : σ} {t : τ} (h : EndsTogether R (x s) (y t))
    (hfg : ∀ a s' t', x s = .ok a s' → R s' t' → EndsTogether R (f a s') (g a t')) :
    EndsTogether R ((x >>= f) s) ((y >>= g) t) := by
  change EndsTogether R (EStateM.bind x f s) (EStateM.bind y g t)
  unfold EStateM.bind
  cases hx : x s with
  | ok a s' =>
    cases hy : y t with
    | ok b t' =>
      rw [hx, hy] at h
      obtain ⟨rfl, hr⟩ := h
      exact hfg a s' t' hx hr
    | error e t' => rw [hx, hy] at h; exact h.elim
  | error e s' =>
    cases hy : y t with
    | ok b t' => rw [hx, hy] at h; exact h.elim
    | error f t' => rw [hx, hy] at h; exact h

/-- The states that are left may be looked at by themselves. -/
theorem EndsTogether.imp {x : EStateM ε σ α} {y : EStateM ε τ α} {s : σ} {t : τ}
    (h : EndsTogether R (x s) (y t))
    (hRS : R (after x s) (after y t) → S (after x s) (after y t)) :
    EndsTogether S (x s) (y t) := by
  unfold after at hRS
  cases hx : x s with
  | ok a s' =>
    cases hy : y t with
    | ok b t' =>
      rw [hx, hy] at h hRS
      exact ⟨h.1, hRS h.2⟩
    | error e t' => rw [hx, hy] at h; exact h.elim
  | error e s' =>
    cases hy : y t with
    | ok b t' => rw [hx, hy] at h; exact h.elim
    | error f t' =>
      rw [hx, hy] at h hRS
      exact ⟨h.1, hRS h.2⟩

end Pass

namespace Plan

open Dataflow.Graph Pass

variable {p q : Plan} {φ : NodeId → NodeId} {K : NodeId → Prop} {id x y : NodeId} {op : Operator}
  {s : Option Schema} {stack : List Visit} {entered : List NodeId}

/-- `φ` renames the operators in `K`, with which are all that lead to them, to operators of another
plan. There they have the same inputs and the same derived schemas, and the supply of identities is
the same. -/
structure Mirrors (φ : NodeId → NodeId) (K : NodeId → Prop) (p q : Plan) : Prop where
  wellFormed : p.graph.WellFormed
  contains : ∀ x, K x → p.graph.contains x = true
  closed : ∀ x, K x → ∀ y ∈ p.graph.predecessors x, K y
  inj : ∀ x y, K x → K y → φ x = φ y → x = y
  operator : ∀ x, K x → q.operator? (φ x) = p.operator? x
  predecessors : ∀ x, K x → q.graph.predecessors (φ x) = (p.graph.predecessors x).map φ
  uids : q.uids = p.uids

/-- Deriving an operator changes nothing but what is derived. -/
theorem alike_deriveOne : KeptByDeriving (Alike p) :=
  .of_ok fun _ _ _ hq hrun => hq.trans (Alike.deriveOne hrun)

namespace Mirrors

section Views

variable (h : Mirrors φ K p q)

include h

theorem memoOf_eq (hx : K x) : q.memoOf (φ x) = p.memoOf x := by
  rw [memoOf, memoOf, h.operator x hx]

theorem nameOf_eq (hx : K x) : q.nameOf (φ x) = p.nameOf x := by
  rw [nameOf, nameOf, h.operator x hx]

theorem isPending_eq (hx : K x) : q.isPending (φ x) = p.isPending x := by
  rw [isPending, isPending, h.operator x hx]

theorem dataInputs_eq (hx : K x) : q.dataInputs (φ x) = (p.dataInputs x).map φ := by
  obtain ⟨op, hop⟩ := exists_operator? (h.contains x hx)
  rw [dataInputs_of_operator? hop, dataInputs_of_operator? ((h.operator x hx).trans hop),
    h.predecessors x hx]
  split <;> rfl

theorem closed_dataInputs (hx : K x) : ∀ z ∈ p.dataInputs x, K z :=
  fun z hz => h.closed x hx z (mem_predecessors_of_mem_dataInputs hz)

/-! ## The order of deriving -/

/-- The entry of the stack for the renamed operator. -/
def entry (φ : NodeId → NodeId) : Visit → Visit
  | .enter id => .enter (φ id)
  | .leave id => .leave (φ id)

theorem mem_entered (hentered : ∀ z ∈ entered, K z) (hx : K x) :
    φ x ∈ entered.map φ ↔ x ∈ entered := by
  refine ⟨fun hmem => ?_, List.mem_map_of_mem⟩
  obtain ⟨z, hz, heq⟩ := List.mem_map.mp hmem
  exact h.inj z x (hentered z hz) hx heq ▸ hz

theorem toEnter_eq {v w : Vertex Operator} (hx : K x) (hv : p.graph.vertices[x]? = some v)
    (hw : q.graph.vertices[φ x]? = some w) (hentered : ∀ z ∈ entered, K z) :
    q.toEnter (entered.map φ) w = (p.toEnter entered v).map φ := by
  unfold toEnter
  rw [dataIns_eq hv, dataIns_eq hw, h.dataInputs_eq hx, List.filter_map]
  congr 1
  refine List.filter_congr fun z hz => ?_
  have hz' := h.closed_dataInputs hx z hz
  have hentered' : (entered.map φ).contains (φ z) = entered.contains z := by
    rw [Bool.eq_iff_iff, List.contains_iff_mem, List.contains_iff_mem]
    exact h.mem_entered hentered hz'
  rw [Function.comp_apply, hentered', h.isPending_eq hz']

theorem closed_toEnter {v : Vertex Operator} (hx : K x) (hv : p.graph.vertices[x]? = some v) :
    ∀ z ∈ p.toEnter entered v, K z := fun z hz => by
  have hz := (List.mem_filter.mp hz).1
  rw [dataIns_eq hv] at hz
  exact h.closed_dataInputs hx z hz

/-- When an operator in `K` is entered, the stack stays in `K`. -/
theorem closed_stack {v : Vertex Operator} {rest : List Visit}
    (hstack : ∀ u ∈ .enter x :: rest, K u.node) (hv : p.graph.vertices[x]? = some v) :
    ∀ u ∈ (p.toEnter entered v).map Visit.enter ++ .leave x :: rest, K u.node := by
  obtain ⟨hx, hrest⟩ := List.forall_mem_cons.mp hstack
  refine List.forall_mem_append.mpr ⟨fun u hu => ?_, List.forall_mem_cons.mpr ⟨hx, hrest⟩⟩
  obtain ⟨z, hz, rfl⟩ := List.mem_map.mp hu
  exact h.closed_toEnter hx hv z hz

/-- The walk against the flow of rows visits the renamed operators in the same order. -/
theorem postOrder_eq (hstack : ∀ v ∈ stack, K v.node) (hentered : ∀ z ∈ entered, K z) :
    q.postOrder (stack.map (entry φ)) (entered.map φ) = (p.postOrder stack entered).map φ := by
  induction stack, entered using postOrder.induct (p := p) with
  | case1 entered => simp [postOrder]
  | case2 entered id rest ih =>
    rw [List.map_cons, entry, postOrder, postOrder, List.map_cons,
      ih (fun v hv => hstack v (List.mem_cons_of_mem _ hv)) hentered]
  | case3 entered id rest hv ih =>
    have hid := h.contains id (hstack (.enter id) (by simp))
    simp [contains_eq, hv] at hid
  | case4 entered id rest v hv hmem ih =>
    rw [List.map_cons, entry, postOrder_skip (.inr hmem),
      postOrder_skip (.inr (List.mem_map_of_mem hmem))]
    exact ih (fun v hv => hstack v (List.mem_cons_of_mem _ hv)) hentered
  | case5 entered id rest v hv hmem ih =>
    have hid : K id := hstack (.enter id) (by simp)
    obtain ⟨op, hop⟩ := exists_operator? (h.contains id hid)
    obtain ⟨w, hw⟩ := exists_vertex (contains_of_operator? ((h.operator id hid).trans hop))
    have hentered' : ∀ z ∈ id :: entered, K z := List.forall_mem_cons.mpr ⟨hid, hentered⟩
    rw [List.map_cons, entry, postOrder_enter hv hmem,
      postOrder_enter hw (mt (h.mem_entered hentered hid).mp hmem), ← List.map_cons,
      h.toEnter_eq hid hv hw hentered']
    rw [← ih (h.closed_stack hstack hv) hentered', List.map_append, List.map_cons, List.map_map,
      List.map_map]
    rfl

/-- The walk stays in the part. -/
theorem closed_postOrder (hstack : ∀ v ∈ stack, K v.node) :
    ∀ x ∈ p.postOrder stack entered, K x := by
  induction stack, entered using postOrder.induct (p := p) with
  | case1 entered => simp [postOrder]
  | case2 entered id rest ih =>
    rw [postOrder]
    refine List.forall_mem_cons.mpr ⟨hstack (.leave id) (by simp), ih fun v hv => ?_⟩
    exact hstack v (List.mem_cons_of_mem _ hv)
  | case3 entered id rest hv ih =>
    rw [postOrder_skip (.inl hv)]
    exact ih fun v hv => hstack v (List.mem_cons_of_mem _ hv)
  | case4 entered id rest v hv hmem ih =>
    rw [postOrder_skip (.inr hmem)]
    exact ih fun v hv => hstack v (List.mem_cons_of_mem _ hv)
  | case5 entered id rest v hv hmem ih =>
    rw [postOrder_enter hv hmem]
    exact ih (h.closed_stack hstack hv)

theorem pendingSchemas_eq (hid : K id) : q.pendingSchemas (φ id) = (p.pendingSchemas id).map φ := by
  have hstack : ∀ v ∈ [Visit.enter id], K v.node := by simpa [Visit.node] using hid
  exact h.postOrder_eq hstack fun z hz => absurd hz List.not_mem_nil

/-! ## Deriving -/

theorem withSchema {o : Operation} {supply : UidSupply} (hx : K x) :
    Mirrors φ K (p.withSchema x s o supply) (q.withSchema (φ x) s o supply) := by
  have hcontains : ∀ z, (p.withSchema x s o supply).graph.contains z = p.graph.contains z :=
    fun z => contains_update
  have hpre : ∀ z, (p.withSchema x s o supply).graph.predecessors z = p.graph.predecessors z :=
    fun z => predecessors_update
  refine ⟨h.wellFormed.congr rfl hcontains (fun _ => successors_update) hpre,
    fun z hz => (hcontains z).trans (h.contains z hz), fun z hz y hy => ?_, h.inj,
    fun z hz => ?_, fun z hz => ?_, rfl⟩
  · exact h.closed z hz y (hpre z ▸ hy)
  · have hiff : φ z = φ x ↔ z = x := ⟨h.inj z x hz hx, congrArg φ⟩
    rw [operator?_withSchema, operator?_withSchema, h.operator z hz]
    simp only [hiff]
  · rw [hpre]
    exact predecessors_update.trans (h.predecessors z hz)

/-- Deriving an operator whose inputs are derived ends alike on both plans. -/
theorem deriveOne (hx : K x) (hins : ∀ z ∈ p.dataInputs x, (p.memoOf z).isSome) :
    EndsTogether (Mirrors φ K) (Plan.deriveOne x p) (Plan.deriveOne (φ x) q) := by
  obtain ⟨op, hop⟩ := exists_operator? (h.contains x hx)
  have hins' : ∀ z ∈ q.dataInputs (φ x), (q.memoOf z).isSome := fun z hz => by
    rw [h.dataInputs_eq hx] at hz
    obtain ⟨y, hy, rfl⟩ := List.mem_map.mp hz
    rw [h.memoOf_eq (h.closed_dataInputs hx y hy)]
    exact hins y hy
  have hschemas : (q.dataInputs (φ x)).map (fun z => (q.memoOf z).join) =
      (p.dataInputs x).map fun z => (p.memoOf z).join := by
    rw [h.dataInputs_eq hx, List.map_map]
    exact List.map_congr_left fun z hz =>
      congrArg Option.join (h.memoOf_eq (h.closed_dataInputs hx z hz))
  have hnames : (q.dataInputs (φ x)).map q.nameOf = (p.dataInputs x).map p.nameOf := by
    rw [h.dataInputs_eq hx, List.map_map]
    exact List.map_congr_left fun z hz => h.nameOf_eq (h.closed_dataInputs hx z hz)
  rw [deriveOne_eq hop hins, deriveOne_eq ((h.operator x hx).trans hop) hins', hschemas, hnames,
    h.uids]
  cases op.deriveSchema ((p.dataInputs x).map fun z => (p.memoOf z).join)
      ((p.dataInputs x).map p.nameOf) p.uids with
  | error e => exact ⟨rfl, h⟩
  | ok result => exact ⟨rfl, h.withSchema hx⟩

end Views

/-- A list of operators in `K` can be derived in turn: each stands behind those of its inputs that
are missing. -/
def InTurn (K : NodeId → Prop) (p : Plan) (l : List NodeId) : Prop :=
  ∀ before x behind, l = before ++ x :: behind → K x ∧
    ∀ z ∈ p.dataInputs x, p.isPending z = true → z ∈ before

theorem InTurn.tail {l : List NodeId} {u : Unit} {p' : Plan} (h : InTurn K p (x :: l))
    (hrun : Plan.deriveOne x p = .ok u p') : InTurn K p' l := by
  have halike := Alike.deriveOne hrun
  obtain ⟨op, s, o, supply, hop, -, -, rfl⟩ := deriveOne_eq_ok.mp hrun
  intro before z behind hsplit
  obtain ⟨hz, hins⟩ := h (x :: before) z behind (by rw [hsplit]; rfl)
  rw [halike.dataInputs]
  refine ⟨hz, fun y hy hpend => ?_⟩
  rw [Plan.isPending_eq, memoOf_withSchema hop] at hpend
  by_cases hyx : y = x
  · simp [hyx] at hpend
  · rw [if_neg hyx, ← Plan.isPending_eq] at hpend
    exact (List.mem_cons.mp (hins y hy hpend)).resolve_left hyx

/-- Operators that can be derived in turn are derived alike on both plans. -/
theorem forM_deriveOne : ∀ {l : List NodeId} {p q : Plan}, Mirrors φ K p q → InTurn K p l →
    EndsTogether (Mirrors φ K) (l.forM Plan.deriveOne p) ((l.map φ).forM Plan.deriveOne q)
  | [], p, q, h, _ => ⟨rfl, h⟩
  | x :: l, p, q, h, hl => by
    obtain ⟨hx, hins⟩ := hl [] x l rfl
    have hhead := h.deriveOne hx fun z hz => memoOf_isSome_of_not_pending (by
      rw [Bool.eq_false_iff]
      exact fun hpend => List.not_mem_nil (hins z hz hpend))
    rw [List.map_cons, Pass.forM_cons, Pass.forM_cons]
    exact hhead.bind fun u p' q' hrun h' => forM_deriveOne h' (hl.tail hrun)

/-- A request for a schema ends alike on both plans: with the same schema, or with the same
error. -/
theorem schema (h : Mirrors φ K p q) (hac : p.graph.Acyclic) (hid : K id) :
    EndsTogether (Mirrors φ K) (Plan.schema id p) (Plan.schema (φ id) q) := by
  obtain ⟨op, hop⟩ := exists_operator? (h.contains id hid)
  unfold Plan.schema
  rw [Pass.bind_of_ok Pass.get_apply, Pass.bind_of_ok Pass.get_apply,
    Pass.bind_of_ok (ofResult_eq_ok.mpr ⟨operator_eq_ok.mpr hop, rfl⟩),
    Pass.bind_of_ok (ofResult_eq_ok.mpr
      ⟨operator_eq_ok.mpr ((h.operator id hid).trans hop), rfl⟩)]
  cases op.memo with
  | some s => exact ⟨rfl, h⟩
  | none =>
    dsimp only
    rw [h.pendingSchemas_eq hid]
    have hturn : InTurn K p (p.pendingSchemas id) := by
      have hspec := (pendingSchemas_spec h.wellFormed hac (h.contains id hid)).2
      have hK : ∀ x ∈ p.pendingSchemas id, K x :=
        h.closed_postOrder (by simpa [Visit.node] using hid)
      intro before x behind hsplit
      exact ⟨hK x (by simp [hsplit]), (hspec before x behind hsplit).2⟩
    refine (forM_deriveOne h hturn).bind fun u p' q' _ h' => ?_
    obtain ⟨op', hop'⟩ := exists_operator? (h'.contains id hid)
    rw [Pass.bind_of_ok Pass.get_apply, Pass.bind_of_ok Pass.get_apply,
      Pass.bind_of_ok (ofResult_eq_ok.mpr ⟨operator_eq_ok.mpr hop', rfl⟩),
      Pass.bind_of_ok (ofResult_eq_ok.mpr
        ⟨operator_eq_ok.mpr ((h'.operator id hid).trans hop'), rfl⟩)]
    exact ⟨rfl, h'⟩

end Mirrors

end Plan

end Dataflow

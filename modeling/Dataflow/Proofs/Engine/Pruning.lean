import Dataflow.Proofs.Engine.Outcome
import Dataflow.Proofs.Engine.Pruned
import Dataflow.Proofs.Plan.Outline

/-!
# Pruning map keys keeps outcomes

A plan on whose loads the needed keys were noted can be prepared exactly if the plan could be
before, and then has the same outcome on every storage (`pruneMapKeys_outcome`): the rows that its
operators make agree with the rows before, and a store needs all of its rows.
-/

namespace Dataflow

open Dataflow.Graph Plan Engine

variable {p q r : Plan} {s : Storage} {n N : Needs} {z : NodeId}
  {tables : List (NodeId × KeyTable)} {o : NodeId → Option Schema}

namespace Plan

/-! ## Noted keys and schemas -/

namespace Annotated

theorem sameFlow (h : Annotated tables p q) : SameFlow p q :=
  ⟨h.ids, h.successors, h.predecessors, fun id => by
    rcases h.core id with hz | ⟨name, l, table, -, hp, hq⟩
    · rw [hz]
    · rw [hp, hq]
      rfl⟩

/-- Deriving more schemas before makes no difference. -/
theorem of_alike (h : Annotated tables p q) (hr : Alike p r) : Annotated tables r q :=
  ⟨h.ids.trans hr.ids.symm, h.nextKey.trans hr.nextKey.symm,
    fun id => (h.successors id).trans (hr.successors id).symm,
    fun id => (h.predecessors id).trans (hr.predecessors id).symm,
    fun id => by
      have hcore : r.core? id = p.core? id := hr.core?
      rw [hcore]
      exact h.core id,
    fun x hx ht => h.noted x hx (hr.hasType ht)⟩

theorem nameOf (h : Annotated tables p q) : q.nameOf = p.nameOf := funext fun id => by
  have hname : ∀ p : Plan, p.nameOf id = (p.core? id).bind Operator.name := fun p => by
    rw [Plan.nameOf, core?]
    cases p.operator? id <;> rfl
  rw [hname, hname]
  rcases h.core id with hz | ⟨name, l, table, -, hp, hq⟩
  · rw [hz]
  · rw [hp, hq]
    rfl

/-- Noted keys do not show in schemas. -/
theorem outlined (h : Annotated tables p q) : q.Outlined o ↔ p.Outlined o := by
  have hdata : q.dataInputs = p.dataInputs := funext fun _ => h.dataInputs
  unfold Outlined
  rw [hdata, h.nameOf]
  refine forall_congr' fun id => ?_
  rcases h.core id with hz | ⟨name, l, table, -, hp, hq⟩
  · rw [hz]
  · rw [hp, hq]
    simp [Operator.outline?]

end Annotated

theorem Outlined.alike_iff (h : Alike p q) : q.Outlined o ↔ p.Outlined o :=
  ⟨fun ho => ho.alike h.symm, fun ho => ho.alike h⟩

theorem Prunes.annotated (h : Prunes p q) : ∃ tables, Annotated tables p q := by
  obtain ⟨-, -, tables, -, -, -, -, hann⟩ := h
  exact ⟨tables, hann⟩

/-- A plan that can be prepared is one of which all schemas can be derived. -/
theorem exists_derived (hp : p.Sound) (hv : p.Valid) (ho : p.Outlined o) :
    ∃ r, Extends p r ∧ r.Derived := by
  have hready := hp.ready hv
  obtain ⟨r, hr⟩ := ho.resolve hready
  have hspec := resolveSchemas_spec hready
  rw [hr] at hspec
  obtain ⟨hext, hknown⟩ := hspec
  exact ⟨r, hext, hp.extends hext, hext.alike.valid hv, fun z hz =>
    hknown z (hext.alike.contains ▸ hz)⟩

/-- Plans with the same equations for outlines can both be prepared or neither of them can. -/
theorem exists_ofPlan_congr (hp : p.Sound) (hv : p.Valid) (hq : q.Sound) (hvq : q.Valid)
    (h : ∀ o, q.Outlined o ↔ p.Outlined o) :
    (∃ P, Prepared.ofPlan p = .ok P) ↔ ∃ Q, Prepared.ofPlan q = .ok Q := by
  rw [exists_ofPlan_iff hp, exists_ofPlan_iff hq, ← exists_outlined_iff (hp.ready hv),
    ← exists_outlined_iff (hq.ready hvq)]
  exact and_congr ⟨fun _ => hvq, fun _ => hv⟩ (exists_congr fun o => (h o).symm)

/-! ## Comparing the plans -/

/-- On every storage the pruned plan fails at the same operators and stores the same rows. -/
theorem Prunes.compare (h : Prunes p q) (hp : p.Sound) (hv : p.Valid) (hq : q.Sound)
    (hvq : q.Valid) (hflat : p.NoFlatten) (hunp : p.Unpruned) (ho : p.Outlined o) (s : Storage) :
    ∃ d d', Solves s p d ∧ Solves s q d' ∧
      (∀ z, p.graph.contains z = true → (SucceedsAt s p d z ↔ SucceedsAt s q d' z)) ∧
      ∀ z, p.HasType z .store → (d z).rows = (d' z).rows := by
  obtain ⟨order, N, tables, hmem, hord, hgathers, htables, hann⟩ := h
  obtain ⟨r, hext, hr⟩ := exists_derived hp hv ho
  obtain ⟨d, hd⟩ := exists_solves s hp.wellFormed hv.acyclic
  obtain ⟨d', hd'⟩ := exists_solves s hq.wellFormed hvq.acyclic
  have hordr : r.graph.Ordered order.reverse.reverse := fun before x behind heq y hy =>
    hord before x behind (by rwa [List.reverse_reverse] at heq) y (hext.alike.predecessors x ▸ hy)
  have hagree : ∀ z, p.graph.contains z = true → AgreesAt s r q d d' {} z := fun z hz =>
    (hgathers.extends hext).agreesAt hr (hann.of_alike hext.alike) (hd.alike hext.alike) hd'
      (hunp.alike hp.wellFormed hext.alike) (hflat.alike hp.wellFormed hext.alike)
      (fun x hx => by
        obtain ⟨t, ht, hkeys⟩ := htables x hx
        exact ⟨t, hext.memo _ _ ht, hkeys⟩)
      (fun x hx => hext.alike.contains.trans ((hmem x).mp (List.mem_reverse.mp hx))) hordr z
      (List.mem_reverse.mpr ((hmem z).mpr hz))
  refine ⟨d, d', hd, hd', fun z hz => ?_, fun z hz => ?_⟩
  · rw [← (hagree z hz).succeeds, SucceedsAt.alike hext.alike]
  · exact (hagree z hz.contains).stored (hext.alike.symm.hasType hz)

/-- After the needed keys were noted, the plan has the same flow, can be prepared exactly if it
could be before, fails at the same operators and stores the same rows. -/
theorem pruneMapKeys_compare {count : Nat} (hp : p.Sound) (hv : p.Valid) (hflat : p.NoFlatten)
    (hunp : p.Unpruned) (hrun : pruneMapKeys p = .ok count q) :
    q.Sound ∧ q.Valid ∧ SameFlow p q ∧
      ((∃ P, Prepared.ofPlan p = .ok P) ↔ ∃ Q, Prepared.ofPlan q = .ok Q) ∧
      ∀ P, Prepared.ofPlan p = .ok P → ∀ s, ∃ d d', Solves s p d ∧ Solves s q d' ∧
        (∀ z, p.graph.contains z = true → (SucceedsAt s p d z ↔ SucceedsAt s q d' z)) ∧
        ∀ z, p.HasType z .store → (d z).rows = (d' z).rows := by
  have hspec := pruneMapKeys_spec hp hv
  rw [hrun] at hspec
  obtain ⟨hq, hvq, hspec⟩ := hspec
  refine ⟨hq, hvq, ?_⟩
  rcases hspec with hext | ⟨r, hext, hprunes⟩
  · -- the analysis gave up: only schemas were derived
    refine ⟨hext.alike.sameFlow,
      exists_ofPlan_congr hp hv hq hvq fun o => Outlined.alike_iff hext.alike, fun _ _ s => ?_⟩
    obtain ⟨d, hd⟩ := exists_solves s hp.wellFormed hv.acyclic
    exact ⟨d, d, hd, hd.alike hext.alike, fun z _ => (SucceedsAt.alike hext.alike).symm,
      fun _ _ => rfl⟩
  · obtain ⟨tables, hann⟩ := hprunes.annotated
    have hprepared := exists_ofPlan_congr hp hv hq hvq fun o =>
      hann.outlined.trans (Outlined.alike_iff hext.alike)
    refine ⟨hext.alike.sameFlow.trans hann.sameFlow, hprepared, fun P hP s => ?_⟩
    obtain ⟨o, ho⟩ := (exists_outlined_iff (hp.ready hv)).mpr
      ((exists_ofPlan_iff hp).mp ⟨P, hP⟩).2
    obtain ⟨d, d', hd, hd', hsucceeds, hstored⟩ := hprunes.compare (hp.extends hext)
      (hext.alike.valid hv) hq hvq (hflat.alike hp.wellFormed hext.alike)
      (hunp.alike hp.wellFormed hext.alike) (ho.alike hext.alike) s
    refine ⟨d, d', hd.alike hext.alike.symm, hd', fun z hz => ?_, fun z hz => ?_⟩
    · rw [← SucceedsAt.alike hext.alike]
      exact hsucceeds z (hext.alike.contains.trans hz)
    · exact hstored z (hext.alike.symm.hasType hz)

/-- A map column of which one key is looked up. -/
def lookupPlan : Plan := made do
  let column : Field := { name := some "m", type := .map }
  let load ← append { operation := .load { location := "/in", declared := some [column] } } []
  let f ← ofResult (Formula.ofExpr (.lookup (.column 0 0 none) "a"))
  let values ← append { operation := .forEach [{ formula := f }] } [load]
  append { operation := .store "/out" } [values]

/-- A record whose map has two keys. -/
def twoKeys : Storage :=
  ({} : Storage).insert "/in" [[.map [("a", .int 1), ("b", .int 2)]]]

end Plan

end Dataflow

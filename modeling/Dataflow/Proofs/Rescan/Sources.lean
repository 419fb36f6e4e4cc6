import Dataflow.Proofs.Lists
import Dataflow.Proofs.Plan.Identities
import Dataflow.Proofs.Plan.Repeats
import Dataflow.Proofs.Rescan.Flow
import Dataflow.Proofs.Rescan.Net
import Dataflow.Proofs.Rewrite.Steps

/-!
# The flow of a plan

`Under p x r` says that `x` is `r` or a filter behind `r` with nothing but filters in between, so
that its schema is that of `r`. A plan without cycles has one flow (`HasFlow`), and a request for
the schema of `x` does to it what a request for that of `r` does on the flow (`HasFlow.schema`).
-/

namespace Dataflow.Plan

section

open Dataflow.Graph

variable {p q : Plan} {x y z r s id : NodeId} {op : Operator} {t : Option Schema} {W W' : Flow}
  {rank : NodeId → Nat} {n m : Nat}

/-- The operator without its derived schema, if it is not a filter. -/
def lasting (p : Plan) (r : NodeId) : Option Operator :=
  (p.operator? r).bind fun op => if op.type = .filter then none else some op.forget

theorem lasting_eq_some {op : Operator} : p.lasting r = some op ↔
    ∃ op', p.operator? r = some op' ∧ op'.type ≠ .filter ∧ op'.forget = op := by
  unfold lasting
  simp [Option.bind_eq_some_iff, ite_eq_iff]

theorem lasting_of_hasType {t : OperatorType} (h : p.HasType r t) (ht : t ≠ .filter) :
    (p.lasting r).isSome := by
  obtain ⟨op, hop, rfl⟩ := h
  rw [lasting_eq_some.mpr ⟨op, hop, ht, rfl⟩]
  rfl

theorem hasType_of_lasting (h : p.lasting r = some op) :
    p.HasType r op.type ∧ op.type ≠ .filter := by
  obtain ⟨op', hop', ht, rfl⟩ := lasting_eq_some.mp h
  exact ⟨⟨op', hop', rfl⟩, ht⟩

/-- The operator is this one, or a filter behind it with only filters in between. -/
inductive Under (p : Plan) : NodeId → NodeId → Prop
  | self {r : NodeId} : (p.lasting r).isSome → Under p r r
  | filter {x y r : NodeId} : p.HasType x .filter → p.graph.predecessors x = [y] → Under p y r →
      Under p x r

namespace Under

theorem lasting (h : p.Under x r) : (p.lasting r).isSome := by
  induction h with
  | self hr => exact hr
  | filter _ _ _ ih => exact ih

theorem not_filter (hr : (p.lasting r).isSome) : ¬p.HasType r .filter := by
  obtain ⟨op, hop⟩ := Option.isSome_iff_exists.mp hr
  obtain ⟨ht, hne⟩ := hasType_of_lasting hop
  exact ht.not hne

theorem unique (h : p.Under x r) (h' : p.Under x s) : r = s := by
  induction h with
  | self hr =>
    cases h' with
    | self => rfl
    | filter hx => exact absurd hx (not_filter hr)
  | filter hx hpre _ ih =>
    cases h' with
    | self hr => exact absurd hx (not_filter hr)
    | filter _ hpre' h' =>
      obtain rfl := List.singleton_inj.mp (hpre.symm.trans hpre')
      exact ih h'

theorem eq_of_lasting (h : p.Under x r) (hx : (p.lasting x).isSome) : r = x :=
  h.unique (.self hx)

theorem contains (h : p.Under x r) : p.graph.contains x = true := by
  cases h with
  | self hr =>
    obtain ⟨op, hop⟩ := Option.isSome_iff_exists.mp hr
    exact (hasType_of_lasting hop).1.contains
  | filter hx => exact hx.contains

theorem rank_le (h : p.Under x r) (hwf : p.graph.WellFormed)
    (hrank : ∀ a b, b ∈ p.graph.successors a → rank a < rank b) : rank r ≤ rank x := by
  induction h with
  | self => exact Nat.le_refl _
  | @filter x y r _ hpre _ ih =>
    have := hrank y x ((hwf.edge y x).mpr (by simp [hpre]))
    omega

end Under

theorem lasting_isSome_congr (h : Alike p q) : (q.lasting r).isSome = (p.lasting r).isSome := by
  have hiff : ∀ {p q : Plan}, Alike p q → (p.lasting r).isSome → (q.lasting r).isSome := by
    intro p q h hr
    obtain ⟨op, hop⟩ := Option.isSome_iff_exists.mp hr
    obtain ⟨ht, hne⟩ := hasType_of_lasting hop
    exact lasting_of_hasType (h.symm.hasType ht) hne
  exact Bool.eq_iff_iff.mpr ⟨hiff h.symm, hiff h⟩

theorem Under.alike (h : p.Under x r) (hq : Alike p q) : q.Under x r := by
  induction h with
  | self hr => exact .self (by rwa [lasting_isSome_congr hq])
  | filter hx hpre _ ih => exact .filter (hq.symm.hasType hx) ((hq.predecessors _).trans hpre) ih

theorem exists_under (hp : p.Sound) (hv : p.Valid) (hx : p.graph.contains x = true) :
    ∃ r, p.Under x r := by
  refine hv.acyclic.inputs_first hp.wellFormed (P := fun x => ∃ r, p.Under x r)
    (fun x hx ih => ?_) x hx
  obtain ⟨op, hop⟩ := exists_operator? hx
  by_cases hfilter : op.type = .filter
  · have hx : p.HasType x .filter := ⟨op, hop, hfilter⟩
    obtain ⟨name, f, hf⟩ := hx.isFilter
    obtain ⟨-, -, -, a, ha, -⟩ := hf.predicate hp hv
    obtain ⟨r, hr⟩ := ih a (by simp [ha])
    exact ⟨r, .filter hx ha hr⟩
  · exact ⟨x, .self (lasting_of_hasType ⟨op, hop, rfl⟩ hfilter)⟩

/-! ## The flow -/

/-- This is the flow of the plan. -/
structure HasFlow (p : Plan) (W : Flow) : Prop where
  op : ∀ r, W.op r = p.lasting r
  inputs : ∀ r, (W.op r).isSome → List.Forall₂ p.Under (p.dataInputs r) (W.inputs r)
  absent : ∀ r, W.op r = none → W.inputs r = []
  uids : W.uids = p.uids

theorem forall₂_unique {l : List NodeId} : ∀ {as bs : List NodeId}, List.Forall₂ p.Under l as →
    List.Forall₂ p.Under l bs → as = bs := by
  induction l with
  | nil =>
    intro as bs has hbs
    cases has
    cases hbs
    rfl
  | cons x l ih =>
    intro as bs has hbs
    cases has with
    | cons ha has =>
      cases hbs with
      | cons hb hbs => rw [ha.unique hb, ih has hbs]

theorem HasFlow.unique (h : p.HasFlow W) (h' : p.HasFlow W') : W = W' := by
  have hop : W.op = W'.op := funext fun r => (h.op r).trans (h'.op r).symm
  have hinputs : W.inputs = W'.inputs := by
    funext r
    cases hr : W.op r with
    | none => rw [h.absent r hr, h'.absent r (hop ▸ hr)]
    | some op =>
      exact forall₂_unique (h.inputs r (by rw [hr]; rfl)) (h'.inputs r (by rw [← hop, hr]; rfl))
  have huids : W.uids = W'.uids := h.uids.trans h'.uids.symm
  obtain ⟨ops, inputs, uids⟩ := W
  obtain ⟨ops', inputs', uids'⟩ := W'
  simp_all

theorem exists_hasFlow (hp : p.Sound) (hv : p.Valid) : ∃ W, p.HasFlow W := by
  have hinputs : ∀ r, ∃ l, (p.lasting r).isSome → List.Forall₂ p.Under (p.dataInputs r) l := by
    intro r
    have hall : ∀ y ∈ p.dataInputs r, p.graph.contains y = true := fun y hy =>
      hp.wellFormed.source (mem_predecessors_of_mem_dataInputs hy)
    suffices h : ∃ l, List.Forall₂ p.Under (p.dataInputs r) l from h.imp fun _ h _ => h
    generalize p.dataInputs r = l at hall
    induction l with
    | nil => exact ⟨[], .nil⟩
    | cons y l ih =>
      obtain ⟨hy, hl⟩ := List.forall_mem_cons.mp hall
      obtain ⟨s, hs⟩ := exists_under hp hv hy
      obtain ⟨rest, hrest⟩ := ih hl
      exact ⟨s :: rest, .cons hs hrest⟩
  choose inputs hinputs using hinputs
  refine ⟨⟨p.lasting, fun r => if (p.lasting r).isSome then inputs r else [], p.uids⟩, fun _ => rfl,
    fun r hr => ?_, fun r hr => ?_, rfl⟩
  · have hr : (p.lasting r).isSome := hr
    simp only [hr, if_true]
    exact hinputs r hr
  · have hr : p.lasting r = none := hr
    simp [hr]

theorem HasFlow.alike (h : p.HasFlow W) (hq : Alike p q) (hop : ∀ r, q.lasting r = p.lasting r)
    (huids : q.uids = p.uids) : q.HasFlow W where
  op r := (h.op r).trans (hop r).symm
  inputs r hr := by
    rw [hq.dataInputs]
    exact (h.inputs r hr).imp fun _ _ hu => hu.alike hq
  absent := h.absent
  uids := h.uids.trans huids.symm

theorem Agrees.symm (h : Agrees p q) : Agrees q p :=
  ⟨h.toAlike.symm, h.uids.symm, fun z => (h.forget z).symm⟩

theorem Agrees.lasting (h : Agrees p q) : q.lasting r = p.lasting r := by
  have hforget := h.forget r
  unfold Plan.lasting
  cases hp : p.operator? r with
  | none => simp_all
  | some op =>
    obtain ⟨op', hop', heq⟩ := h.operator? hp
    have htype : op'.type = op.type := congrArg (fun op => op.operation.type) heq
    simp [hop', heq, htype]

theorem HasFlow.agrees (h : p.HasFlow W) (hq : Agrees p q) : q.HasFlow W :=
  h.alike hq.toAlike (fun _ => hq.lasting) hq.uids

theorem HasFlow.graded (h : p.HasFlow W) (hwf : p.graph.WellFormed)
    (hrank : ∀ a b, b ∈ p.graph.successors a → rank a < rank b) : W.Graded rank := by
  intro r x hx
  cases hr : W.op r with
  | none =>
    rw [h.absent r hr] at hx
    cases hx
  | some op =>
    obtain ⟨y, hy, hu⟩ := Lists.exists_of_forall₂ (h.inputs r (by rw [hr]; rfl)).flip hx
    refine ⟨?_, by rw [h.op]; exact hu.lasting⟩
    have hle := hu.rank_le hwf hrank
    have hlt := hrank y r ((hwf.edge y r).mpr (mem_predecessors_of_mem_dataInputs hy))
    omega

/-! ## Requests -/

theorem alike_withOperation {o : Operation} {supply : UidSupply} (hop : p.operator? id = some op)
    (ho : o.withoutUids = op.operation.withoutUids) : Alike p (p.withOperation id o supply) := by
  refine ⟨rfl, rfl, fun z => successors_update, fun z => predecessors_update, fun z => ?_⟩
  rw [operator?_withOperation]
  split
  · rename_i hz
    rw [hz, hop]
    simp [Operator.core, ho]
  · rfl

theorem keeps_rederive : ∀ (n : Nat) (x : NodeId), Pass.Keeps (Alike p) (rederive n x) := by
  intro n
  induction n with
  | zero => exact fun _ => .throw
  | succ n ih =>
    intro x
    unfold rederive
    refine .bind .get fun q₀ => .bind (.mapM ih _) fun schemas => ?_
    intro q hq
    unfold Pass.after
    rw [Pass.bind_of_ok Pass.get_apply]
    cases hop : q.operator x with
    | error e => exact hq
    | ok op =>
      rw [Pass.bind_of_ok (ofResult_eq_ok.mpr ⟨rfl, rfl⟩)]
      cases hd : op.deriveSchema schemas ((q.dataInputs x).map q.nameOf) q.uids with
      | error e => exact hq
      | ok derived =>
        obtain ⟨s, o, supply⟩ := derived
        exact hq.trans (alike_withOperation (operator_eq_ok.mp hop) (deriveSchema_again none hd).1)

theorem alike_rederive (h : rederive n x p = .ok t q) : Alike p q :=
  (keeps_rederive n x).of_ok .refl h

/-- What deriving anew does, in steps. -/
theorem rederive_eq_ok : rederive (n + 1) x p = .ok t q ↔ ∃ schemas q' op o supply,
    (p.dataInputs x).mapM (rederive n) p = .ok schemas q' ∧ q'.operator? x = some op ∧
      op.deriveSchema schemas ((q'.dataInputs x).map q'.nameOf) q'.uids = .ok (t, o, supply) ∧
      q = q'.withOperation x o supply := by
  unfold rederive
  rw [Pass.bind_of_ok Pass.get_apply]
  simp only [Pass.bind_eq_ok, ofResult_eq_ok, Pass.set_apply, Pass.get_apply, operator_eq_ok,
    Prod.exists, EStateM.Result.ok.injEq, Pass.pure_apply]
  constructor
  · rintro ⟨schemas, q', hins, _, _, ⟨rfl, rfl⟩, op, _, ⟨hop, rfl⟩, s, o, supply, _, ⟨hd, rfl⟩,
    _, _,
      ⟨-, rfl⟩, rfl, rfl⟩
    exact ⟨schemas, q', op, o, supply, hins, hop, hd, rfl⟩
  · rintro ⟨schemas, q', op, o, supply, hins, hop, hd, rfl⟩
    exact ⟨schemas, q', hins, q', q', ⟨rfl, rfl⟩, op, q', ⟨hop, rfl⟩, t, o, supply, q', ⟨hd, rfl⟩,
      (), _,
      ⟨trivial, rfl⟩, rfl, rfl⟩

theorem lasting_withOperation {o : Operation} {supply : UidSupply} (hop : p.operator? id = some op)
    (ho : o.type = op.type) : (p.withOperation id o supply).lasting x =
      if x = id then (p.lasting id).map fun op => { op with operation := o } else p.lasting x := by
  unfold lasting
  rw [operator?_withOperation]
  split
  · rename_i hx
    rw [hx, hop]
    have htype : Operator.type { op with operation := o } = op.type := ho
    by_cases hfilter : op.type = .filter <;>
      simp [htype, hfilter, Operator.forget]
  · rfl

theorem mapM_rederive {rs : List NodeId} (hm : ∀ {p q : Plan} {W : Flow} {x r : NodeId}
    {t : Option Schema}, p.HasFlow W → p.Under x r → rederive n x p = .ok t q →
      (W.ask m r).1 = t.map Schema.unnamed ∧ q.HasFlow (W.ask m r).2) :
    ∀ {l : List NodeId} {p q : Plan} {W : Flow} {ts : List (Option Schema)}, p.HasFlow W →
      List.Forall₂ p.Under l rs → l.mapM (rederive n) p = .ok ts q →
      (Flow.askAll (Flow.ask m) rs W).1 = Operator.unnamed ts ∧ ts.length = l.length ∧
        q.HasFlow (Flow.askAll (Flow.ask m) rs W).2 ∧ Alike p q := by
  induction rs with
  | nil =>
    intro l p q W ts h hl hrun
    cases hl
    rw [List.mapM_nil] at hrun
    obtain ⟨rfl, rfl⟩ := EStateM.Result.ok.inj hrun
    exact ⟨rfl, rfl, h, .refl⟩
  | cons r rs ih =>
    intro l p q W ts h hl hrun
    cases hl with
    | cons hx hl =>
      rw [List.mapM_cons] at hrun
      obtain ⟨t, q₁, hone, hrun⟩ := Pass.bind_eq_ok.mp hrun
      obtain ⟨rest, q₂, hrest, hrun⟩ := Pass.bind_eq_ok.mp hrun
      obtain ⟨rfl, rfl⟩ := EStateM.Result.ok.inj hrun
      have halike := alike_rederive hone
      obtain ⟨ht, h₁⟩ := hm h hx hone
      obtain ⟨hts, hlen, h₂, halike₂⟩ := ih h₁ (hl.imp fun _ _ hu => hu.alike halike) hrest
      refine ⟨?_, by rw [List.length_cons, hlen, List.length_cons], h₂, halike.trans halike₂⟩
      rw [Flow.askAll_cons, Operator.unnamed_cons, ht, hts]

/-- Deriving anew, down to so many levels, can be followed on the flow. -/
theorem HasFlow.rederive (h : p.HasFlow W) (hx : p.Under x r)
    (hrun : rederive n x p = .ok t q) (hm : n ≤ m) :
    (W.ask m r).1 = t.map Schema.unnamed ∧ q.HasFlow (W.ask m r).2 := by
  induction n generalizing p q W x r t m with
  | zero => cases hrun
  | succ n ih =>
    obtain ⟨schemas, q', op, o, supply, hins, hop, hd, rfl⟩ := rederive_eq_ok.mp hrun
    cases hx with
    | @filter _ y _ hfilter hpre hy =>
      -- a filter passes on what it gets
      obtain ⟨name, f, hf⟩ := hfilter.isFilter
      rw [hf.dataInputs, hpre, List.mapM_cons] at hins
      obtain ⟨u, q₁, hone, hins⟩ := Pass.bind_eq_ok.mp hins
      obtain ⟨rfl, rfl⟩ := EStateM.Result.ok.inj hins
      obtain ⟨ht, h₁⟩ := ih h hy hone (Nat.le_of_succ_le hm)
      have hfq := (alike_rederive hone).isFilter.mpr hf
      obtain ⟨op', hop', hoperation, -⟩ := hfq.operator?
      obtain rfl : op = op' := Option.some.inj (hop.symm.trans hop')
      rw [Operator.deriveSchema_filter hoperation] at hd
      obtain ⟨rfl, rfl, rfl⟩ : u = t ∧ op.operation = o ∧ q₁.uids = supply := by
        simpa [Expr.schemaOf?] using hd
      refine ⟨ht, h₁.alike (alike_withOperation hop rfl) (fun z => ?_) rfl⟩
      rw [lasting_withOperation hop rfl]
      split
      · rename_i hz
        have hnone : q₁.lasting x = none := by
          rw [Plan.lasting, hop]
          exact if_pos (by rw [Operator.type, hoperation]; rfl)
        rw [hz, hnone]
        rfl
      · rfl
    | self hr =>
      obtain ⟨m, rfl⟩ : ∃ k, m = k + 1 := ⟨m - 1, by omega⟩
      obtain ⟨hts, hlen, h₁, halike⟩ := mapM_rederive (m := m)
        (fun h hx hrun => ih h hx hrun (by omega)) h (h.inputs x (by rwa [h.op])) hins
      have hr' : (q'.lasting x).isSome := by rwa [lasting_isSome_congr halike]
      obtain ⟨op', hlast⟩ := Option.isSome_iff_exists.mp hr'
      obtain ⟨op₁, hop₁, -, rfl⟩ := lasting_eq_some.mp hlast
      obtain rfl : op = op₁ := Option.some.inj (hop.symm.trans hop₁)
      have hbare := Operator.bareDerive_unnamed (by
        rw [List.length_map, hlen, halike.dataInputs]) hd
      have htype : o.type = op.type := by
        have htype : (op.bareDerive (Operator.unnamed schemas) q'.uids).2.1.type = op.type :=
          Operator.type_bareDerive
        rwa [hbare] at htype
      rw [Flow.ask_of_op ((h₁.op x).trans hlast), hts, h₁.uids,
        show Operator.bareDerive op.forget = Operator.bareDerive op from rfl, hbare]
      have hsame : Alike _ (Plan.withOperation _ x o supply) :=
        alike_withOperation hop (deriveSchema_again none hd).1
      have hlike : Flow.Like _ (Flow.note _ x o supply) := .note ((h₁.op x).trans hlast) htype
      refine ⟨rfl, fun z => ?_, fun z hz => ?_, fun z hz => ?_, rfl⟩
      · rw [lasting_withOperation hop htype, Flow.op_note, h₁.op, h₁.op]
      · rw [hlike.isSome] at hz
        rw [hsame.dataInputs]
        exact (h₁.inputs z hz).imp fun _ _ hu => hu.alike hsame
      · refine h₁.absent z (Option.not_isSome_iff_eq_none.mp ?_)
        rw [← hlike.isSome, hz]
        simp

/-- A request for a schema can be followed on the flow. -/
theorem HasFlow.schema (h : p.HasFlow W) (hp : p.Ready) (hx : p.Under x r)
    (hrun : Plan.schema x p = .ok t q) (hn : p.size ≤ n) :
    (W.ask n r).1 = t.map Schema.unnamed ∧ q.HasFlow (W.ask n r).2 := by
  have halike := schema_endsAlike hp x
  rw [hrun] at halike
  cases hanew : Plan.rederive p.size x p with
  | error e q' =>
    rw [hanew] at halike
    exact halike.elim
  | ok s q' =>
    rw [hanew] at halike
    obtain ⟨rfl, hq⟩ := halike
    obtain ⟨ht, hflow⟩ := h.rederive hx hanew hn
    exact ⟨ht, hflow.agrees hq.symm⟩

end

/-!
## Plans that differ in the keys of their filters

Two runs of the same rules may give their filters different keys. Otherwise their plans are the
same: the operators, their inputs and outputs, the order in which they are gone through, and the
flow (`Counterparts`).
-/

section

open Dataflow.Graph

variable {p q p' q' : Plan} {φ : Equiv.Perm NodeId} {x r : NodeId} {t : OperatorType}

theorem Alike.sources (h : Alike p q) : q.graph.sources = p.graph.sources := by
  unfold Graph.sources
  rw [h.ids]
  exact List.filter_congr fun x _ => by rw [h.predecessors]

/-- The plans differ in the keys of their filters only, and have the same flow. -/
structure Counterparts (φ : Equiv.Perm NodeId) (p q : Plan) : Prop where
  sound : p.Sound
  valid : p.Valid
  sound' : q.Sound
  valid' : q.Valid
  renames : Net.Renames φ p.net q.net
  sources : q.graph.sources = p.graph.sources
  flow : ∃ W, p.HasFlow W ∧ q.HasFlow W

namespace Counterparts

theorem refl (hp : p.Sound) (hv : p.Valid) : Counterparts 1 p p := by
  obtain ⟨W, hW⟩ := exists_hasFlow hp hv
  exact ⟨hp, hv, hp, hv, .one, rfl, W, hW, hW⟩

variable (h : Counterparts φ p q)

include h

theorem symm : Counterparts φ⁻¹ q p := by
  obtain ⟨W, hW, hW'⟩ := h.flow
  exact ⟨h.sound', h.valid', h.sound, h.valid, h.renames.symm, h.sources.symm, W, hW', hW⟩

theorem isomorphism : Isomorphism (fun a b : Operator => b.core = a.core) p.graph q.graph φ :=
  isomorphism_of_map h.renames.eq

theorem core?_eq : q.core? (φ x) = p.core? x := (Net.eq_map_iff.mp h.renames.eq).1 x

theorem successors_eq : q.graph.successors (φ x) = (p.graph.successors x).map φ :=
  (Net.eq_map_iff.mp h.renames.eq).2.1 x

theorem predecessors_eq : q.graph.predecessors (φ x) = (p.graph.predecessors x).map φ :=
  (Net.eq_map_iff.mp h.renames.eq).2.2 x

theorem hasType_iff : q.HasType (φ x) t ↔ p.HasType x t := by
  rw [hasType_iff_core?, hasType_iff_core?, h.core?_eq]

theorem dataInputs_eq : q.dataInputs (φ x) = (p.dataInputs x).map φ := by
  cases hop : p.core? x with
  | none => rw [dataInputs_of_none hop, dataInputs_of_none (h.core?_eq.trans hop), List.map_nil]
  | some op =>
    rw [dataInputs_of_core? hop, dataInputs_of_core? (h.core?_eq.trans hop), h.predecessors_eq]
    split <;> rfl

/-- The others have the same keys. -/
theorem fixes (hx : p.HasType x t) (ht : t ≠ .filter) : φ x = x := by
  obtain ⟨op, hop, rfl⟩ := hasType_iff_core?.mp hx
  exact h.renames.fixes x op hop ht

theorem size_eq : q.size = p.size :=
  (h.isomorphism.size_eq h.sound.wellFormed h.sound'.wellFormed).symm

theorem under (hx : p.Under x r) : q.Under (φ x) r := by
  induction hx with
  | @self r hr =>
    obtain ⟨op, hop⟩ := Option.isSome_iff_exists.mp hr
    obtain ⟨ht, hne⟩ := hasType_of_lasting hop
    rw [h.fixes ht hne]
    exact .self (lasting_of_hasType (h.fixes ht hne ▸ h.hasType_iff.mpr ht) hne)
  | filter hx hpre _ ih =>
    exact .filter (h.hasType_iff.mpr hx) (by rw [h.predecessors_eq, hpre, List.map_singleton]) ih

/-- The operators are gone through in the same order. -/
theorem topologicalOrder_eq :
    q.graph.topologicalOrder = p.graph.topologicalOrder.map (List.map φ) := by
  have hwf := h.sound.wellFormed
  have hiso := h.isomorphism
  have hrenamed : Graph.Renamed p.graph q.graph φ :=
    ⟨φ.injective.injOn, hiso.successors, hiso.predecessors⟩
  refine hrenamed.topologicalOrder_eq hwf ?_ (hiso.size_eq hwf h.sound'.wellFormed).symm
  -- a source is no filter
  rw [h.sources]
  conv_lhs => rw [← List.map_id p.graph.sources]
  refine List.map_congr_left fun x hx => ?_
  obtain ⟨hx, hnone⟩ := List.mem_filter.mp hx
  obtain ⟨t, ht⟩ := exists_hasType (hwf.contains_of_mem hx)
  refine (h.fixes ht fun hfilter => ?_).symm
  subst hfilter
  obtain ⟨name, f, hf⟩ := ht.isFilter
  obtain ⟨-, -, -, a, ha, -⟩ := hf.predicate h.sound h.valid
  simp [ha] at hnone

/-- They stay counterparts where schemas are derived from the same flow. -/
theorem extended (hp : Extends p p') (hq : Extends q q')
    (hflow : ∃ W, p'.HasFlow W ∧ q'.HasFlow W) : Counterparts φ p' q' where
  sound := h.sound.extends hp
  valid := hp.alike.valid h.valid
  sound' := h.sound'.extends hq
  valid' := hq.alike.valid h.valid'
  renames := by
    rw [hp.alike.net_eq, hq.alike.net_eq]
    exact h.renames
  sources := by rw [hp.alike.sources, hq.alike.sources, h.sources]
  flow := hflow

end Counterparts

end

end Dataflow.Plan

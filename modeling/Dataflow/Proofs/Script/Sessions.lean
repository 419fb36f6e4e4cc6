import Dataflow.Proofs.Script.Drafts
import Dataflow.Script.Session

/-!
# What a session makes of statements and batches

A session brings the location in a statement into canonical form and carries the statement out on
its draft (`register_eq`). So what holds of statements and drafts holds of sessions, over every
history of statements (`register_keeps`).
-/

namespace Dataflow

namespace Session

open Draft (GrowsBy)

variable {s s' : Session} {st st' : Statement} {ids : List NodeId} {e : Error} {n : Nat}

/-- The statement with its location in canonical form. -/
def canonical (s : Session) : Statement → Result Statement
  | .load name path columns => do
    return .load name (← s.resolver.resolve path s.directory) columns
  | .store input path => do return .store input (← s.resolver.resolve path s.directory)
  | other => return other

/-- The stores among the operators that a statement added. -/
def storesOf : Statement → List NodeId → List NodeId
  | .store _ _, ids => ids
  | _, _ => []

/-- How a session ends up that a statement was carried out in, in part or as a whole. -/
def registered (s : Session) (st : Statement) :
    EStateM.Result Error Draft (List NodeId) → EStateM.Result Error Session (List NodeId)
  | .ok ids draft =>
    .ok ids { s with draft, stores := s.stores ++ storesOf st ids, compiled := false }
  | .error e draft => .error e { s with draft, compiled := false }

theorem locate_apply (path : String) : locate path s =
    match s.resolver.resolve path s.directory with
    | .ok location => .ok location s
    | .error e => .error e s := by
  unfold locate
  rw [Pass.bind_of_ok Pass.get_apply]
  unfold onDraft
  cases s.resolver.resolve path s.directory <;> rfl

theorem onDraft_apply (st' : Statement) (h : ∀ ids, storesOf st ids = []) :
    onDraft st'.apply { s with compiled := false } = registered s st (st'.apply s.draft) := by
  simp only [onDraft, registered]
  cases st'.apply s.draft with
  | ok ids draft => simp only [h, List.append_nil]
  | error e draft => rfl

theorem onDraft_store (input location : String) :
    (do let id ← onDraft (Draft.store input location)
        modify fun s => { s with stores := s.stores ++ [id] }
        return [id] : Edit (List NodeId)) { s with compiled := false } =
      registered s (.store input location) ((Statement.store input location).apply s.draft) := by
  have happly : (Statement.store input location).apply s.draft =
      (do return [← Draft.store input location] : Draft.Edit (List NodeId)) s.draft := rfl
  rw [happly]
  cases hrun : Draft.store input location s.draft with
  | ok id draft =>
    rw [Pass.bind_of_ok hrun, Pass.bind_of_ok (a := id)
      (t := { s with draft, compiled := false }) (by simp only [onDraft, hrun])]
    rfl
  | error e draft =>
    rw [Pass.bind_eq_error.mpr (.inl hrun),
      Pass.bind_eq_error.mpr (.inl (by simp only [onDraft, hrun]; rfl))]
    rfl

theorem register_eq (s : Session) (st : Statement) : register st s =
    match s.canonical st with
    | .ok st' => registered s st (st'.apply s.draft)
    | .error e => .error e { s with compiled := false } := by
  have hlocate (path : String) : locate path { s with compiled := false } =
      match s.resolver.resolve path s.directory with
      | .ok location => .ok location { s with compiled := false }
      | .error e => .error e { s with compiled := false } := locate_apply path
  unfold register
  rw [Pass.bind_of_ok Pass.modify_apply]
  cases st with
  | load name path columns =>
    change (locate path >>= fun location =>
      onDraft (Statement.apply (.load name location columns))) _ = _
    simp only [canonical]
    cases hpath : s.resolver.resolve path s.directory with
    | ok location =>
      rw [Pass.bind_of_ok ((hlocate path).trans (by simp only [hpath]; rfl))]
      exact onDraft_apply _ fun _ => rfl
    | error e => exact Pass.bind_eq_error.mpr (.inl ((hlocate path).trans (by simp only [hpath])))
  | store input path =>
    simp only [canonical]
    cases hpath : s.resolver.resolve path s.directory with
    | ok location =>
      refine (Pass.bind_of_ok ((hlocate path).trans (by simp only [hpath]; rfl))).trans ?_
      exact onDraft_store input location
    | error e => exact Pass.bind_eq_error.mpr (.inl ((hlocate path).trans (by simp only [hpath])))
  | _ => exact onDraft_apply _ fun _ => rfl

/-- The canonical statement binds the same names to as many operators. -/
theorem canonical_same (h : s.canonical st = .ok st') :
    st'.names = st.names ∧ st'.keys = st.keys := by
  cases st with
  | load name path columns =>
    obtain ⟨location, -, h⟩ := Pass.except_bind_eq_ok.mp h
    obtain rfl := Except.ok.inj h
    exact ⟨rfl, rfl⟩
  | store input path =>
    obtain ⟨location, -, h⟩ := Pass.except_bind_eq_ok.mp h
    obtain rfl := Except.ok.inj h
    exact ⟨rfl, rfl⟩
  | _ =>
    obtain rfl := Except.ok.inj h
    exact ⟨rfl, rfl⟩

/-- Whether or not a statement is taken, the draft stays sound and keeps what it had. -/
theorem register_keeps (h : s.draft.Sown n) (hroom : n + st.keys < 2 ^ 64) :
    (Pass.after (register st) s).draft.Sown (n + st.keys) ∧
      GrowsBy st.names s.draft (Pass.after (register st) s).draft := by
  unfold Pass.after
  rw [register_eq]
  cases hst : s.canonical st with
  | error e => exact ⟨h.mono (Nat.le_add_right n _), .refl⟩
  | ok st' =>
    obtain ⟨hnames, hkeys⟩ := canonical_same hst
    have hadds := st'.adds_apply n s.draft (hkeys ▸ hroom) h
    rw [hkeys, hnames] at hadds
    unfold Pass.after at hadds
    cases hrun : st'.apply s.draft with
    | ok ids draft => simpa only [registered, hrun] using hadds
    | error e draft => simpa only [registered, hrun] using hadds

end Session

/-!
## Batches

At the end of a batch loads are made to wait for the stores that write what they read. An edge is
added only where no path leads back, so the plan stays free of cycles; edges are only added, so what
was settled for one pair of a load and a store stays settled while the other pairs are gone through
(`Settled.mono`). In the end all pairs are settled, and going through them again adds nothing.
-/

open Dataflow.Graph

namespace Plan

variable {p q r : Plan} {a b id : NodeId} {location : String} {t : OperatorType} {n : Nat}
  {added more : List (NodeId × NodeId)}

/-- An operator of the given type reads from or writes to the location. -/
def HasPlace (p : Plan) (t : OperatorType) (id : NodeId) (location : String) : Prop :=
  ∃ op, p.core? id = some op ∧ op.type = t ∧ op.operation.location? = some location

theorem SameOperators.hasPlace (h : SameOperators p q) :
    q.HasPlace t id location ↔ p.HasPlace t id location := by
  unfold HasPlace
  rw [h.core?]

theorem HasPlace.hasType (h : p.HasPlace t id location) : p.HasType id t := by
  obtain ⟨op, hop, ht, -⟩ := h
  exact hasType_iff_core?.mpr ⟨op, hop, ht⟩

theorem HasPlace.contains (h : p.HasPlace t id location) : p.graph.contains id = true := by
  obtain ⟨op, hop, -⟩ := h
  rw [contains_eq_core?, hop]
  rfl

theorem hasPlace_iff : p.HasPlace t id location ↔ ∃ name operation,
    p.core? id = some { name, operation } ∧ operation.type = t ∧
      operation.location? = some location := by
  constructor
  · rintro ⟨op, hop, ht, hlocation⟩
    obtain ⟨⟨name, operation, memo⟩, -, rfl⟩ := Option.map_eq_some_iff.mp hop
    exact ⟨name, _, hop, ht, hlocation⟩
  · rintro ⟨name, operation, hop, ht, hlocation⟩
    exact ⟨_, hop, ht, hlocation⟩

theorem hasPlace_store : p.HasPlace .store id location ↔
    ∃ name, p.core? id = some { name, operation := .store location } := by
  rw [hasPlace_iff]
  constructor
  · rintro ⟨name, operation, hop, ht, hlocation⟩
    cases operation with
    | store path =>
      obtain rfl := Option.some.inj hlocation
      exact ⟨name, hop⟩
    | _ => cases ht
  · rintro ⟨name, hop⟩
    exact ⟨name, _, hop, rfl, rfl⟩

theorem hasPlace_load : p.HasPlace .load id location ↔
    ∃ name l, p.core? id = some { name, operation := .load l } ∧ l.location = location := by
  rw [hasPlace_iff]
  constructor
  · rintro ⟨name, operation, hop, ht, hlocation⟩
    cases operation with
    | load l => exact ⟨name, l, hop, Option.some.inj hlocation⟩
    | _ => cases ht
  · rintro ⟨name, l, hop, rfl⟩
    exact ⟨name, _, hop, rfl, rfl⟩

/-- Edges from stores to loads of the same location were added behind the others. -/
structure Awaits (added : List (NodeId × NodeId)) (p q : Plan) : Prop where
  same : SameOperators p q
  edges : ∀ a b, b ∈ q.graph.successors a ↔ b ∈ p.graph.successors a ∨ (a, b) ∈ added
  inputs : ∀ z, ¬p.HasType z .load → q.graph.predecessors z = p.graph.predecessors z
  nodup : added.Nodup
  new : ∀ e ∈ added, e.2 ∉ p.graph.successors e.1
  fits : ∀ e ∈ added, ∃ location, p.HasPlace .store e.1 location ∧ p.HasPlace .load e.2 location

namespace Awaits

theorem refl : Awaits [] p p :=
  ⟨.refl, by simp, fun _ _ => rfl, List.nodup_nil, by simp, by simp⟩

theorem trans (h : Awaits added p q) (h' : Awaits more q r) : Awaits (added ++ more) p r where
  same := h.same.trans h'.same
  edges a b := by rw [h'.edges, h.edges, List.mem_append, or_assoc]
  inputs z hz := by rw [h'.inputs z (by rwa [h.same.hasType]), h.inputs z hz]
  nodup := by
    refine List.nodup_append'.mpr ⟨h.nodup, h'.nodup, fun e he hmore => ?_⟩
    exact h'.new e hmore ((h.edges _ _).mpr (.inr he))
  new e he hold := by
    rcases List.mem_append.mp he with he | he
    · exact h.new e he hold
    · exact h'.new e he ((h.edges _ _).mpr (.inl hold))
  fits e he := by
    rcases List.mem_append.mp he with he | he
    · exact h.fits e he
    · obtain ⟨location, hstore, hload⟩ := h'.fits e he
      exact ⟨location, h.same.hasPlace.mp hstore, h.same.hasPlace.mp hload⟩

theorem of_linked (hstore : p.HasPlace .store a location) (hload : p.HasPlace .load b location)
    (hnew : b ∉ p.graph.successors a) (h : Linked a b p q) : Awaits [(a, b)] p q where
  same := h.same
  edges x y := by
    rw [h.successors]
    split_ifs with hx
    · rw [hx, List.mem_append, List.mem_singleton, List.mem_singleton, Prod.mk.injEq]
      simp
    · simp [hx]
  inputs z hz := by
    rw [h.predecessors, if_neg]
    rintro rfl
    exact hz hload.hasType
  nodup := List.nodup_singleton _
  new e he := by
    obtain rfl := List.mem_singleton.mp he
    exact hnew
  fits e he := by
    obtain rfl := List.mem_singleton.mp he
    exact ⟨location, hstore, hload⟩

end Awaits

/-- A load waits for a store if it has to and can. -/
def Settled (p : Plan) (load store : NodeId × String) : Prop :=
  load.2 ≠ store.2 ∨ p.graph.isConnected store.1 load.1 = true ∨
    p.graph.reaches load.1 store.1 = true

theorem Settled.mono {load store : NodeId × String} (h : p.Settled load store)
    (hpq : Awaits added p q) : q.Settled load store := by
  refine h.imp_right (Or.imp (fun hc => ?_) fun hr => ?_)
  · exact isConnected_iff.mpr ((hpq.edges _ _).mpr (.inl (isConnected_iff.mp hc)))
  · exact reaches_mono (fun a b hb => (hpq.edges a b).mpr (.inl hb)) hr

theorem checkConnect_store_load (ha : p.HasType a .store) (hb : p.HasType b .load) :
    p.checkConnect a b = .ok () := by
  obtain ⟨source, hsource, hstore⟩ := ha
  obtain ⟨target, htarget, hload⟩ := hb
  unfold checkConnect
  rw [operator_eq_ok.mpr hsource, operator_eq_ok.mpr htarget, Pass.except_ok_bind,
    Pass.except_ok_bind, hstore, hload]
  rfl

end Plan

namespace Session

open Plan (Awaits Settled HasPlace SameOperators)

variable {p q : Plan} {load store : NodeId × String} {n : Nat} {β γ : Type}

theorem mem_located {t : OperatorType} {x : NodeId × String} (hwf : p.graph.WellFormed) :
    x ∈ located p t ↔ p.HasPlace t x.1 x.2 := by
  obtain ⟨id, location⟩ := x
  unfold located HasPlace
  rw [List.mem_filterMap]
  constructor
  · rintro ⟨⟨id', op⟩, hmem, h⟩
    dsimp only at h
    split_ifs at h with ht
    obtain ⟨location', hlocation, heq⟩ := Option.map_eq_some_iff.mp h
    obtain ⟨rfl, rfl⟩ := Prod.mk.inj heq
    have hop : p.operator? id' = some op := hwf.mem_toList_iff.mp hmem
    refine ⟨op.core, by rw [Plan.core?, hop]; rfl, by rwa [Operator.type_core], ?_⟩
    rw [Operator.operation_core, Operation.location?_withoutUids, hlocation]
  · rintro ⟨op, hop, ht, hlocation⟩
    obtain ⟨op, hid, rfl⟩ := Option.map_eq_some_iff.mp hop
    refine ⟨(id, op), hwf.mem_toList_iff.mpr hid, ?_⟩
    rw [Operator.type_core] at ht
    rw [Operator.operation_core, Operation.location?_withoutUids] at hlocation
    simp [ht, hlocation]

theorem awaitStore_settled (h : p.Settled load store) : awaitStore load store p = .ok 0 p := by
  unfold awaitStore
  rw [Pass.bind_of_ok Pass.get_apply]
  have hskip : (decide (load.2 ≠ store.2) || p.graph.isConnected store.1 load.1 ||
      p.graph.reaches load.1 store.1) = true := by
    simpa [Settled, or_assoc] using h
  rw [if_pos hskip]
  rfl

/-- What a step of finishing a batch does with `b`: it adds as many edges as it says, and settles
what it was to settle. -/
def Settles (n : Nat) (count : γ → Nat) (settled : Plan → β → Prop) (f : β → Plan.Edit γ) (p : Plan)
    (b : β) : Prop :=
  ∃ c q added, f b p = .ok c q ∧ q.Sown n ∧ Awaits added p q ∧ count c = added.length ∧ settled q b

theorem settles_awaitStore (hp : p.Sown n) (hload : p.HasPlace .load load.1 load.2)
    (hstore : p.HasPlace .store store.1 store.2) :
    Settles n id (fun q store => q.Settled load store) (awaitStore load) p store := by
  by_cases hsettled : p.Settled load store
  · exact ⟨0, p, [], awaitStore_settled hsettled, hp, .refl, rfl, hsettled⟩
  · obtain ⟨hsame, hconnected, hback⟩ : load.2 = store.2 ∧
        p.graph.isConnected store.1 load.1 = false ∧ p.graph.reaches load.1 store.1 = false := by
      simpa [Settled, not_or] using hsettled
    have hnew : load.1 ∉ p.graph.successors store.1 := by
      rw [← isConnected_iff, hconnected]
      simp
    have hlink : p.CanLink store.1 load.1 := by
      refine ⟨Plan.checkConnect_store_load hstore.hasType hload.hasType, hstore.contains,
        hload.contains, fun heq => ?_, hnew⟩
      rw [heq, reaches_self] at hback
      simp at hback
    obtain ⟨q, hrun, hlinked⟩ := hlink.connect hp.wellFormed hp.coherent
    have hawaits := Awaits.of_linked hstore (hsame ▸ hload) hnew hlinked
    refine ⟨1, q, _, ?_, hp.linked hback hlinked, hawaits, rfl, .inr (.inl ?_)⟩
    · unfold awaitStore
      rw [Pass.bind_of_ok Pass.get_apply]
      simp only [hsame, hconnected, hback, ne_eq, not_true_eq_false, decide_false, Bool.or_self,
        Bool.false_eq_true, ↓reduceIte]
      rw [Pass.bind_of_ok hrun]
      rfl
    · exact isConnected_iff.mpr ((hawaits.edges _ _).mpr (.inr (by simp)))

/-- The steps of a pass do together what each of them does. -/
theorem settles_mapM {f : β → Plan.Edit γ} {count : γ → Nat} (settled : Plan → β → Prop)
    (hmono : ∀ p q b added, settled p b → Awaits added p q → settled q b) :
    ∀ (bs : List β) {p : Plan}, p.Sown n →
    (∀ b ∈ bs, ∀ q, q.Sown n → SameOperators p q → Settles n count settled f q b) →
    ∃ cs q added, bs.mapM f p = .ok cs q ∧ q.Sown n ∧ Awaits added p q ∧
      (cs.map count).sum = added.length ∧ ∀ b ∈ bs, settled q b
  | [], p, hp, _ => ⟨[], p, [], rfl, hp, .refl, rfl, by simp⟩
  | b :: bs, p, hp, hf => by
    obtain ⟨c, p₁, added, hrun₁, hp₁, hawaits₁, hcount₁, hsettled₁⟩ := hf b (by simp) p hp .refl
    obtain ⟨cs, q, more, hrun, hq, hawaits, hcount, hsettled⟩ := settles_mapM settled hmono bs hp₁
      fun b' hb' q hq hsame =>
        hf b' (List.mem_cons_of_mem b hb') q hq (hawaits₁.same.trans hsame)
    refine ⟨c :: cs, q, added ++ more, ?_, hq, hawaits₁.trans hawaits, ?_, ?_⟩
    · rw [List.mapM_cons, Pass.bind_of_ok hrun₁, Pass.bind_of_ok hrun]
      rfl
    · rw [List.map_cons, List.sum_cons, List.length_append, hcount₁, hcount]
    · rintro b' (_ | ⟨_, hb'⟩)
      · exact hmono _ _ _ _ hsettled₁ hawaits
      · exact hsettled b' hb'

/-- What finishing a batch makes of a plan: it adds so many edges from stores to loads, closes no
cycle, and leaves no load that could wait for a store of its location and does not. -/
structure Batched (count : Nat) (p q : Plan) : Prop where
  added : ∃ added, Awaits added p q ∧ added.length = count
  acyclic : q.graph.hasCycle = false
  settled : ∀ load store location, q.HasPlace .load load location →
    q.HasPlace .store store location →
      q.graph.isConnected store load = true ∨ q.graph.reaches load store = true

/-! ### Whole batches -/

theorem mapM_fixed {f : β → Plan.Edit γ} {c : γ} : ∀ {bs : List β},
    (∀ b ∈ bs, f b p = .ok c p) → bs.mapM f p = .ok (bs.map fun _ => c) p
  | [], _ => rfl
  | b :: bs, h => by
    rw [List.mapM_cons, Pass.bind_of_ok (h b (by simp)),
      Pass.bind_of_ok (mapM_fixed fun b' hb' => h b' (List.mem_cons_of_mem b hb'))]
    rfl

variable {s s' : Session}

theorem onPlan_of_ok {edit : Plan.Edit β} {b : β} (h : edit s.plan = .ok b q) :
    onPlan edit s = .ok b { s with draft := { s.draft with plan := q } } := by
  have h' : edit s.draft.plan = .ok b q := h
  simp only [onPlan, onDraft, Draft.onPlan, h']

/-- A batch is finished on the plan; nothing else of the session changes. -/
theorem compileBatch_eq {counts : List (List Nat)}
    (h : ((located s.plan .load).mapM fun load => (located s.plan .store).mapM (awaitStore load))
      s.plan = .ok counts q) :
    compileBatch s = .ok counts.flatten.sum
      { s with draft := { s.draft with plan := q }, compiled := true } := by
  unfold compileBatch
  rw [Pass.bind_of_ok Pass.get_apply, Pass.bind_of_ok (onPlan_of_ok h),
    Pass.bind_of_ok Pass.modify_apply]
  rfl

/-- Batches can be finished. -/
theorem compileBatch_spec (h : s.draft.Sown n) : ∃ count s', compileBatch s = .ok count s' ∧
    s'.draft.Sown n ∧ s'.compiled = true ∧ Batched count s.plan s'.plan := by
  have hwf := h.plan.wellFormed
  obtain ⟨counts, q, added, hrun, hq, hawaits, hcount, hsettled⟩ :=
    settles_mapM (n := n) (p := s.plan)
      (fun q load => ∀ store ∈ located s.plan .store, q.Settled load store)
      (f := fun load => (located s.plan .store).mapM (awaitStore load))
      (fun _ _ _ _ hload hpq store hstore => (hload store hstore).mono hpq)
      (located s.plan .load) h.plan
      fun load hload p hp hsame => by
        -- the stores for one load
        obtain ⟨counts, q, added, hrun, hq, hawaits, hcount, hsettled⟩ :=
          settles_mapM (fun q store => q.Settled load store)
            (fun _ _ _ _ hstore hpq => hstore.mono hpq) (located s.plan .store) hp
            fun store hstore r hr hpr => settles_awaitStore hr
              ((hsame.trans hpr).hasPlace.mpr ((mem_located hwf).mp hload))
              ((hsame.trans hpr).hasPlace.mpr ((mem_located hwf).mp hstore))
        exact ⟨counts, q, added, hrun, hq, hawaits, by rw [← hcount, List.map_id], hsettled⟩
  refine ⟨_, _, compileBatch_eq hrun, h.withPlan hq fun _ _ => hawaits.same.hasType.mpr, rfl,
    ⟨added, hawaits, ?_⟩, ?_, fun load store location hload hstore => ?_⟩
  · rw [← hcount, List.sum_flatten]
  · exact (hasCycle_eq_false_iff hq.wellFormed).mpr hq.acyclic
  · have hload := (mem_located (x := (load, location)) hwf).mpr (hawaits.same.hasPlace.mp hload)
    have hstore := (mem_located (x := (store, location)) hwf).mpr (hawaits.same.hasPlace.mp hstore)
    exact (hsettled _ hload _ hstore).resolve_left fun hne => hne rfl

/-- A batch that was just finished has nothing left to do. -/
theorem compileBatch_settled (h : s.draft.Sown n) (hs : s.compiled = true)
    (hsettled : ∀ load store location, s.plan.HasPlace .load load location →
      s.plan.HasPlace .store store location →
        s.plan.graph.isConnected store load = true ∨ s.plan.graph.reaches load store = true) :
    compileBatch s = .ok 0 s := by
  have hwf := h.plan.wellFormed
  have hrun : ((located s.plan .load).mapM fun load =>
      (located s.plan .store).mapM (awaitStore load)) s.plan =
        .ok ((located s.plan .load).map fun _ => (located s.plan .store).map fun _ => 0)
          s.plan := by
    refine mapM_fixed fun load hload => mapM_fixed fun store hstore => awaitStore_settled ?_
    by_cases hsame : load.2 = store.2
    · have hload := (mem_located hwf).mp hload
      exact .inr (hsettled _ _ _ hload (hsame ▸ (mem_located hwf).mp hstore))
    · exact .inl hsame
  rw [compileBatch_eq hrun]
  congr 1
  · rw [List.sum_flatten]
    simp
  · rw [← hs]
    rfl

/-! ### Histories of sessions -/

/-- What happens to a session while statements are taken. -/
inductive Step where
  | register (statement : Statement)
  | compileBatch

namespace Step

def run : Step → Edit Unit
  | .register statement => discard (Session.register statement)
  | .compileBatch => discard Session.compileBatch

/-- How many operators a step adds. -/
def keys : Step → Nat
  | .register statement => statement.keys
  | .compileBatch => 0

/-- Takes one step after the other, whether or not they succeed. -/
def runAll (steps : List Step) (s : Session) : Session :=
  steps.foldl (fun s step => Pass.after step.run s) s

def totalKeys (steps : List Step) : Nat := (steps.map keys).sum

theorem run_keeps {step : Step} (h : s.draft.Sown n) (hroom : n + step.keys < 2 ^ 64) :
    (Pass.after step.run s).draft.Sown (n + step.keys) := by
  cases step with
  | register statement =>
    show (Pass.after (discard (Session.register statement)) s).draft.Sown _
    rw [Pass.after_discard]
    exact (register_keeps h hroom).1
  | compileBatch =>
    show (Pass.after (discard Session.compileBatch) s).draft.Sown _
    obtain ⟨count, s', hrun, h', -⟩ := compileBatch_spec h
    rw [Pass.after_discard, Pass.after, hrun]
    exact h'

theorem runAll_keeps : ∀ {steps : List Step} {s : Session} {n : Nat}, s.draft.Sown n →
    n + totalKeys steps < 2 ^ 64 → (runAll steps s).draft.Sown (n + totalKeys steps)
  | [], _, _, h, _ => h
  | step :: steps, s, n, h, hroom => by
    have hsum : n + totalKeys (step :: steps) = n + step.keys + totalKeys steps := by
      simp [totalKeys, Nat.add_assoc]
    rw [hsum] at hroom ⊢
    exact runAll_keeps (run_keeps h (Nat.lt_of_le_of_lt (Nat.le_add_right _ _) hroom)) hroom

/-- The draft of every session is sound while there are keys. -/
theorem sown_of_history {steps : List Step} {resolver : Location.Resolver} {directory : String}
    (hkeys : totalKeys steps < 2 ^ 64) (hs : runAll steps { resolver, directory } = s) :
    s.draft.Sown (totalKeys steps) := by
  have hkept : (runAll steps { resolver, directory }).draft.Sown (0 + totalKeys steps) :=
    runAll_keeps .empty (by rwa [Nat.zero_add])
  rwa [hs, Nat.zero_add] at hkept

end Step

/-- However a session came to be: its plan has no cycle, its batch can be finished, which settles
all pairs of loads and stores, and finishing it again at once adds nothing. -/
theorem compileBatch_of_history {steps : List Step} {resolver : Location.Resolver}
    {directory : String} (hkeys : Step.totalKeys steps < 2 ^ 64)
    (hs : Step.runAll steps { resolver, directory } = s) :
    s.plan.graph.hasCycle = false ∧ ∃ count s', compileBatch s = .ok count s' ∧
      Batched count s.plan s'.plan ∧ compileBatch s' = .ok 0 s' := by
  have h := Step.sown_of_history hkeys hs
  have hcycle : s.plan.graph.hasCycle = false :=
    (hasCycle_eq_false_iff h.plan.wellFormed).mpr h.plan.acyclic
  obtain ⟨count, s', hrun, h', hcompiled, hbatched⟩ := compileBatch_spec h
  exact ⟨hcycle, count, s', hrun, hbatched, compileBatch_settled h' hcompiled hbatched.settled⟩

/-- One load waits for a store, and the first one would wait for what is made of it. -/
def loopingSteps : List Step :=
  [.register (.load "A" "/in" none), .register (.store "A" "out"), .compileBatch,
    .register (.load "B" "/out" none), .register (.cross "X" ["B", "B"]), .compileBatch,
    .register (.store "B" "/in"), .register (.load "C" "/tmp/../in" none)]

theorem loopingSteps_batched : ∃ s', compileBatch (Step.runAll loopingSteps { directory := "/" }) =
    .ok 1 s' ∧ Batched 1 (Step.runAll loopingSteps { directory := "/" }).plan s'.plan ∧
      compileBatch s' = .ok 0 s' := by
  have hkeys : Step.totalKeys loopingSteps < 2 ^ 64 := by decide
  obtain ⟨-, count, s', hrun, hbatched, hagain⟩ :=
    compileBatch_of_history hkeys rfl
  have hcount : Pass.result? compileBatch
      (Step.runAll loopingSteps { resolver := .path, directory := "/" }) = some 1 := by
    decide +kernel
  obtain rfl : count = 1 := by
    rw [Pass.result?, hrun] at hcount
    exact Option.some.inj hcount
  exact ⟨s', hrun, hbatched, hagain⟩

end Session

end Dataflow

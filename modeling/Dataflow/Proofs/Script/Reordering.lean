import Dataflow.Proofs.Engine.Outputs
import Dataflow.Proofs.Script.Histories
import Dataflow.Script.Basic

/-!
# The order of statements

A session may take the same statements in another order, as long as names are bound before they are
used. What the statements draw is then in another place of the plan, and the stages are run in
another order. But each operator is seen the same (`Draft.view`): it has the same name, its rows
have the same outline, and, going by the storage in the end, it means the same rows
(`Outcome.view_of_drawn`). So the storage in the end is the same, too
(`Session.final_of_reordered`). It has to be clear what loads read, however: with two stores of one
location, or with a load that leads to a store of the location that it reads, the order decides
(`Session.order_matters`).
-/

namespace Dataflow

open Plan (Solves)

variable {p q : Plan} {z : NodeId} {op : Operator} {l l' : List Statement} {st : Statement}
  {d d' : Draft} {o o' : NodeId → Option Schema} {m m' : NodeId → Meaning} {s t t' : Storage}
  {location : String} {key : NodeId} {keys : List NodeId}

namespace Plan

theorem Awaits.retains {added : List (NodeId × NodeId)} (h : Awaits added p q) : Retains p q where
  core? z _ := h.same.core? z
  dataInputs z hz := by
    obtain ⟨op, hop⟩ := Option.isSome_iff_exists.mp (contains_eq_core? ▸ hz)
    rw [dataInputs_of_core? hop, dataInputs_of_core? ((h.same.core? z).trans hop)]
    split_ifs with hload
    · rfl
    · refine h.inputs z fun ht => hload ?_
      obtain ⟨op', hop', ht⟩ := hasType_iff_core?.mp ht
      rwa [Option.some.inj (hop.symm.trans hop')]

theorem Solves.of_holds {inputs : List NodeId} (hm : Solves s p m) (h : p.Holds z op inputs) :
    m z = op.operation.meaning s (inputs.map m) := by
  obtain ⟨op', hop', hsame⟩ := h.exists_core
  have hmeaning : op'.operation.meaning s = op.operation.meaning s := by
    funext ms
    rw [← Operation.meaning_unnumbered, ← Operation.meaning_unnumbered s op.operation]
    exact congrArg (fun op : Operator => op.operation.meaning s ms) hsame
  rw [hm z op' hop', h.inputs, hmeaning]

end Plan

namespace Draft

/-! ## What is seen of an operator -/

/-- What is seen of an operator: its name, the outline of its output, and its rows. -/
def view (d : Draft) (o : NodeId → Option Schema) (m : NodeId → Meaning) (z : NodeId) :
    Option String × Option Schema × Meaning :=
  (d.plan.nameOf z, o z, m z)

/-- The draft consists of what the statements drew, and running its plan brings `s` to `t`. -/
structure Outcome (l : List Statement) (s t : Storage) (d : Draft) (o : NodeId → Option Schema)
    (m : NodeId → Meaning) : Prop where
  wellFormed : d.plan.graph.WellFormed
  acyclic : d.plan.graph.Acyclic
  built : Built o l d
  outlined : d.plan.Outlined o
  solves : Solves t d.plan m
  waits : ∀ x z location, d.plan.HasPlace .load x location → d.plan.HasPlace .store z location →
    z ∈ d.plan.graph.predecessors x
  stored : ∀ z location, d.plan.HasPlace .store z location → t.get? location = some (m z).rows
  kept : ∀ location, (∀ z, ¬d.plan.HasPlace .store z location) → t.get? location = s.get? location

theorem of_views {ids ids' : List NodeId} (h : ids.map (d.view o m) = ids'.map (d'.view o' m')) :
    ids.map d.plan.nameOf = ids'.map d'.plan.nameOf ∧ ids.map o = ids'.map o' ∧
      ids.map m = ids'.map m' := by
  have hparts {γ : Type} (f : Option String × Option Schema × Meaning → γ) :
      ids.map (f ∘ d.view o m) = ids'.map (f ∘ d'.view o' m') := by
    rw [← List.map_map, ← List.map_map, h]
  exact ⟨hparts Prod.fst, hparts fun v => v.2.1, hparts fun v => v.2.2⟩

/-- A name of what is seen the same. -/
theorem view_of_named {keys' : List NodeId} {key' z' : NodeId} {name : String}
    (hdrawn : d.Drawn o st key keys) (hdrawn' : d'.Drawn o' st key' keys')
    (hviews : (key :: keys).map (d.view o m) = (key' :: keys').map (d'.view o' m'))
    (hname : name ∈ st.names) (hz : d.names[name]? = some z) (hz' : d'.names[name]? = some z') :
    d.view o m z = d'.view o' m' z' := by
  obtain ⟨x, hx, hxz, hxname⟩ := hdrawn.exists_named hname
  obtain rfl := Option.some.inj (hxz.symm.trans hz)
  obtain ⟨x', hx', hview⟩ := List.mem_map.mp (hviews ▸ List.mem_map_of_mem hx)
  have hxname' : d'.plan.nameOf x' = some name := (congrArg Prod.fst hview).trans hxname
  obtain rfl := Option.some.inj ((hdrawn'.named hx' hxname').symm.trans hz')
  exact hview.symm

theorem Drawn.rank_le (h : d.Drawn o st key keys) (hwf : d.plan.graph.WellFormed)
    {rank : NodeId → Nat} (hrank : ∀ a b, b ∈ d.plan.graph.successors a → rank a < rank b)
    (hz : z ∈ key :: keys) : rank key ≤ rank z := by
  obtain ⟨x, inputs, -, -, hlaid⟩ := h
  rcases List.mem_cons.mp hz with rfl | hz
  · exact Nat.le_refl _
  · obtain ⟨i, hi, rfl⟩ := List.getElem_of_mem hz
    have hholds := hlaid.others.get (hlaid.others.length_eq ▸ hi) hi
    have hmem : key ∈ d.plan.dataInputs (keys.get ⟨i, hi⟩) := by
      rw [hholds.inputs]
      exact List.mem_singleton_self key
    exact Nat.le_of_lt (Plan.rank_of_mem_dataInputs hwf hrank hmem)

namespace Outcome

/-- An operator is seen the same behind inputs that are, if it reads the same. -/
theorem view_of_holds {z z' : NodeId} {inputs inputs' : List NodeId} (h : Outcome l s t d o m)
    (h' : Outcome l' s t' d' o' m') (hz : d.plan.Holds z op inputs)
    (hz' : d'.plan.Holds z' op inputs')
    (hinputs : inputs.map (d.view o m) = inputs'.map (d'.view o' m'))
    (hread : ∀ r, op.operation = .load r → t.get? r.location = t'.get? r.location) :
    d.view o m z = d'.view o' m' z' := by
  obtain ⟨hnames, houtlines, hmeanings⟩ := of_views hinputs
  have houtline := h.outlined.of_holds hz
  rw [hnames, houtlines, h'.outlined.of_holds hz'] at houtline
  have hmeaning : m z = m' z' := by
    rw [h.solves.of_holds hz, h'.solves.of_holds hz', hmeanings]
    exact (Engine.operation_congr hread).1
  rw [view, view, hz.nameOf, hz'.nameOf, hmeaning, Except.ok.inj houtline]

/-- What a statement drew is seen the same behind inputs that are. -/
theorem view_of_laid {x : Drawing} {inputs inputs' keys' : List NodeId} {key' : NodeId}
    (h : Outcome l s t d o m) (h' : Outcome l' s t' d' o' m') (hx : d.Laid x inputs key keys)
    (hx' : d'.Laid x inputs' key' keys')
    (hinputs : inputs.map (d.view o m) = inputs'.map (d'.view o' m'))
    (hread : ∀ op ∈ x.operators, ∀ r, op.operation = .load r →
      t.get? r.location = t'.get? r.location) :
    (key :: keys).map (d.view o m) = (key' :: keys').map (d'.view o' m') := by
  have hfirst := view_of_holds h h' hx.first hx'.first hinputs (hread x.first List.mem_cons_self)
  rw [List.map_cons, List.map_cons, hfirst, List.cons_inj_right]
  refine List.ext_getElem ?_ fun i hi hi' => ?_
  · simp [← hx.others.length_eq, ← hx'.others.length_eq]
  · rw [List.length_map] at hi hi'
    have hi'' : i < x.others.length := hx.others.length_eq ▸ hi
    rw [List.getElem_map, List.getElem_map]
    refine view_of_holds h h' (hx.others.get hi'' hi) (hx'.others.get hi'' hi') ?_
      (hread _ (List.mem_cons_of_mem _ (List.getElem_mem hi'')))
    rw [List.map_singleton, List.map_singleton, hfirst]

/-- Names that mean operators that are seen the same. -/
theorem view_of_mean : ∀ {names : List String} {ids ids' : List NodeId}, d.Mean names ids →
    d'.Mean names ids' → (∀ (name : String) (z z' : NodeId), z ∈ ids → d.names[name]? = some z →
      d'.names[name]? = some z' → d.view o m z = d'.view o' m' z') →
    ids.map (d.view o m) = ids'.map (d'.view o' m')
  | [], _, _, .nil, .nil, _ => rfl
  | name :: names, z :: ids, z' :: ids', .cons hz hids, .cons hz' hids', h => by
    rw [List.map_cons, List.map_cons, h name z z' List.mem_cons_self hz hz',
      view_of_mean hids hids' fun name z z' hmem => h name z z' (List.mem_cons_of_mem _ hmem)]

/-- A location that is written by what is seen the same holds the same in the end. -/
theorem same_at (h : Outcome l s t d o m) (h' : Outcome l' s t' d' o' m') (hl : l.Perm l')
    (hviews : ∀ st ∈ l, st.place = some (.store, location) → ∀ key keys key' keys',
      d.Drawn o st key keys → d'.Drawn o' st key' keys' → d.view o m key = d'.view o' m' key') :
    t.get? location = t'.get? location := by
  by_cases hstored : ∃ st ∈ l, st.place = some (.store, location)
  · obtain ⟨st, hst, hplace⟩ := hstored
    obtain ⟨key, keys, hdrawn⟩ := h.built.exists_drawn hst
    obtain ⟨key', keys', hdrawn'⟩ := h'.built.exists_drawn (hl.mem_iff.mp hst)
    have hview := hviews st hst hplace key keys key' keys' hdrawn hdrawn'
    have hmeaning : m key = m' key' := congrArg (fun v => v.2.2) hview
    rw [h.stored key location ((hdrawn.hasPlace List.mem_cons_self).mpr hplace),
      h'.stored key' location ((hdrawn'.hasPlace List.mem_cons_self).mpr hplace), hmeaning]
  · have hstored' : ¬∃ st ∈ l', st.place = some (.store, location) := by
      simpa only [hl.mem_iff] using hstored
    rw [← h.built.hasPlace h.wellFormed, not_exists] at hstored
    rw [← h'.built.hasPlace h'.wellFormed, not_exists] at hstored'
    rw [h.kept location hstored, h'.kept location hstored']

/-- What the statements drew is seen the same in whichever order they were taken: the induction is
on how far an operator is behind others, waiting for stores included. -/
theorem view_of_drawn (h : Outcome l s t d o m) (h' : Outcome l' s t' d' o' m') (hl : l.Perm l')
    {rank : NodeId → Nat} (hrank : ∀ a b, b ∈ d.plan.graph.successors a → rank a < rank b)
    (n : Nat) :
    ∀ st ∈ l, ∀ key keys key' keys', rank key < n → d.Drawn o st key keys →
      d'.Drawn o' st key' keys' →
        (key :: keys).map (d.view o m) = (key' :: keys').map (d'.view o' m') := by
  induction n with
  | zero => exact fun st _ key keys key' keys' hlt => absurd hlt (Nat.not_lt_zero _)
  | succ n ih =>
    intro st hst key keys key' keys' hlt hdrawn hdrawn'
    obtain ⟨x, inputs, hmean, hdraw, hlaid⟩ := id hdrawn
    obtain ⟨x', inputs', hmean', hdraw', hlaid'⟩ := id hdrawn'
    have hinputs : inputs.map (d.view o m) = inputs'.map (d'.view o' m') := by
      refine view_of_mean hmean hmean' fun name z z' hz hid hid' => ?_
      obtain ⟨st₀, hst₀, hname⟩ := List.mem_flatMap.mp (h.built.names name z hid)
      obtain ⟨key₀, keys₀, hdrawn₀⟩ := h.built.exists_drawn hst₀
      obtain ⟨key₀', keys₀', hdrawn₀'⟩ := h'.built.exists_drawn (hl.mem_iff.mp hst₀)
      obtain ⟨y, hy, hyz, -⟩ := hdrawn₀.exists_named hname
      obtain rfl := Option.some.inj (hyz.symm.trans hid)
      have hyrank := hdrawn₀.rank_le h.wellFormed hrank hy
      have hzrank := Plan.rank_of_mem_dataInputs h.wellFormed hrank (hlaid.first.inputs ▸ hz)
      have hviews := ih st₀ hst₀ key₀ keys₀ key₀' keys₀' (by omega) hdrawn₀ hdrawn₀'
      exact view_of_named hdrawn₀ hdrawn₀' hviews hname hid hid'
    have hread : ∀ op ∈ x.operators, ∀ r, op.operation = .load r →
        t.get? r.location = t'.get? r.location := by
      intro op hop r hr
      have hplace : st.place = some (.load, r.location) := by
        rw [← (Statement.fits_drawing hdraw).place op hop, Operator.type, hr]
        rfl
      refine same_at h h' hl fun st₀ hst₀ hplace₀ key₀ keys₀ key₀' keys₀' hdrawn₀ hdrawn₀' => ?_
      -- what the load waits for comes before it
      have hwaits := h.waits key key₀ r.location ((hdrawn.hasPlace List.mem_cons_self).mpr hplace)
        ((hdrawn₀.hasPlace List.mem_cons_self).mpr hplace₀)
      have hrank₀ := hrank key₀ key ((h.wellFormed.edge key₀ key).mpr hwaits)
      have hviews := ih st₀ hst₀ key₀ keys₀ key₀' keys₀' (by omega) hdrawn₀ hdrawn₀'
      exact (List.cons.inj hviews).1
    have hsame : x = x' := by
      rw [(of_views hinputs).2.1, hdraw'] at hdraw
      exact (Except.ok.inj hdraw).symm
    exact view_of_laid h h' hlaid (hsame ▸ hlaid') hinputs hread

/-- In whichever order the statements were taken, the storage is the same in the end. -/
theorem same (h : Outcome l s t d o m) (h' : Outcome l' s t' d' o' m') (hl : l.Perm l')
    (location : String) : t.get? location = t'.get? location := by
  obtain ⟨rank, hrank⟩ := h.acyclic
  refine same_at h h' hl fun st hst _ key keys key' keys' hdrawn hdrawn' => ?_
  have hviews := view_of_drawn h h' hl hrank (rank key + 1) st hst key keys key' keys'
    (Nat.lt_succ_self _) hdrawn hdrawn'
  exact (List.cons.inj hviews).1

end Outcome

end Draft

namespace Session

open Draft (Built Outcome)
open Plan (HasPlace)

variable {s s' : Session} {script script' : Script} {resolver : Location.Resolver}
  {directory : String} {storage : Storage} {P P' : Prepared}

/-- No location is written by two stores. -/
def StoredOnce (p : Plan) : Prop := ((located p .store).map Prod.snd).Nodup

/-- No load leads to a store of the location that it reads. -/
def LoopFree (p : Plan) : Prop := ∀ load ∈ located p .load, ∀ store ∈ located p .store,
  load.2 = store.2 → p.graph.reaches load.1 store.1 = false

instance : Decidable (StoredOnce p) := inferInstanceAs (Decidable (List.Nodup _))

instance : Decidable (LoopFree p) :=
  inferInstanceAs (Decidable (∀ load ∈ _, ∀ store ∈ _, _ = _ → _ = _))

theorem StoredOnce.storesApart (h : StoredOnce p) (hwf : p.graph.WellFormed) : p.StoresApart := by
  intro x z location nx nz hx hz
  have hxplace := (mem_located (x := (x, location)) hwf).mpr (Plan.hasPlace_store.mpr ⟨nx, hx⟩)
  have hzplace := (mem_located (x := (z, location)) hwf).mpr (Plan.hasPlace_store.mpr ⟨nz, hz⟩)
  exact congrArg Prod.fst (List.inj_on_of_nodup_map h hxplace hzplace rfl)

/-- A new session takes the script, and all jobs of its plan are completed on a storage. -/
structure Finishes (script : Script) (resolver : Location.Resolver) (directory : String)
    (storage : Storage) (s : Session) (P : Prepared) : Prop where
  run : script.run { resolver, directory } = .ok () s
  prepared : Prepared.ofPlan s.plan = .ok P
  completed : ∀ i < P.stages.length, Engine.Completed P storage i

theorem names_onPlan {β : Type} {edit : Plan.Edit β} {b : β} (h : onPlan edit s = .ok b s') :
    s'.draft.names = s.draft.names := by
  cases hedit : edit s.plan with
  | ok b' q =>
    rw [onPlan_of_ok hedit] at h
    obtain ⟨-, rfl⟩ : b' = b ∧ _ = s' := by simpa using h
    rfl
  | error e q =>
    have hedit : edit s.draft.plan = .error e q := hedit
    simp [onPlan, onDraft, Draft.onPlan, hedit] at h

theorem names_compileBatch {count : Nat} (h : compileBatch s = .ok count s') :
    s'.draft.names = s.draft.names := by
  unfold compileBatch at h
  rw [Pass.bind_of_ok Pass.get_apply] at h
  obtain ⟨counts, t, hplan, h⟩ := Pass.bind_eq_ok.mp h
  rw [Pass.bind_of_ok Pass.modify_apply] at h
  obtain ⟨-, rfl⟩ : _ ∧ ({ t with compiled := true } : Session) = s' := by simpa using h
  show t.draft.names = _
  exact names_onPlan hplan

theorem hasKeys_canonical {st' : Statement} (h : s.canonical st = .ok st') :
    st'.hasKeys = st.hasKeys := by
  cases st with
  | load name path columns =>
    obtain ⟨_, -, h⟩ := Pass.except_bind_eq_ok.mp h
    rw [← Except.ok.inj h]
    rfl
  | store input path =>
    obtain ⟨_, -, h⟩ := Pass.except_bind_eq_ok.mp h
    rw [← Except.ok.inj h]
    rfl
  | _ => rw [← Except.ok.inj h]

/-- What is known of a session whose statements bind all names once, when all jobs of its plan are
completed. -/
theorem exists_outcome (hnames : (script.statements.flatMap Statement.names).Nodup)
    (hkeys : (script.statements.map Statement.keys).sum < 2 ^ 64)
    (hexprs : ∀ st ∈ script.statements, st.hasKeys = true)
    (hs : Finishes script resolver directory storage s P) (hstores : StoredOnce s.plan)
    (hloops : LoopFree s.plan) :
    ∃ l o m, List.Forall₂ (fun st st' => canonical { resolver, directory } st = .ok st')
      script.statements l ∧ Outcome l storage (Engine.execute P storage).2 s.draft o m := by
  obtain ⟨hrun, hP, hdone⟩ := hs
  obtain ⟨_, s₁, hregister, hrun⟩ := Pass.bind_eq_ok.mp hrun
  obtain ⟨count, hcompile⟩ := Pass.discard_eq_ok.mp hrun
  have hkeys' : 0 + (script.statements.map Statement.keys).sum < 2 ^ 64 := by rwa [Nat.zero_add]
  obtain ⟨h₁, -⟩ := registerAll_grows .empty hkeys' hregister
  obtain ⟨count', s'', hcompile', h, -, hbatched⟩ := compileBatch_spec h₁
  obtain ⟨rfl, rfl⟩ : count' = count ∧ s'' = s := by simpa [hcompile] using hcompile'.symm
  obtain ⟨added, hawaits, -⟩ := hbatched.added
  obtain ⟨o, ho⟩ := Plan.exists_outlined h.plan.toReady
    (Plan.resolveSchemas_of_ofPlan h.plan.toReady hP)
  obtain ⟨l, hl, hbuilt⟩ := @registerAll_built o script.statements [] _ _ _ .empty .empty hkeys'
    hnames (ho.of_retains h₁.plan.wellFormed hawaits.retains) hregister
  have hbuilt : Built o l s''.draft :=
    hbuilt.retained hawaits.retains hawaits.same.ids (names_compileBatch hcompile)
  have hformulas : s''.plan.FormulasSound := by
    refine hbuilt.formulasSound h.plan.wellFormed fun st' hst' => ?_
    obtain ⟨i, hi, rfl⟩ := List.getElem_of_mem hst'
    have hi' : i < script.statements.length := hl.length_eq ▸ hi
    rw [← hexprs _ (List.getElem_mem hi')]
    exact hasKeys_canonical (hl.get hi' hi)
  have hsound : s''.plan.Sound := ⟨h.plan.wellFormed, h.plan.keysBelow, hformulas, h.plan.coherent⟩
  obtain ⟨m, hm⟩ := Plan.exists_solves (Engine.execute P storage).2 h.plan.wellFormed h.plan.acyclic
  have hwaits : ∀ x z location, s''.plan.HasPlace .load x location →
      s''.plan.HasPlace .store z location → z ∈ s''.plan.graph.predecessors x := by
    intro x z location hx hz
    have hloop := hloops (x, location) ((mem_located h.plan.wellFormed).mpr hx) (z, location)
      ((mem_located h.plan.wellFormed).mpr hz) rfl
    rcases hbatched.settled x z location hx hz with hconnected | hreaches
    · exact (h.plan.wellFormed.edge z x).mp (Graph.isConnected_iff.mp hconnected)
    · exact absurd hreaches (by simp [hloop])
  obtain ⟨hstored, hkept⟩ := Engine.final_of_completed hsound hP
    (hstores.storesApart h.plan.wellFormed) (fun x z r location nx nz hx hz hr =>
      hwaits x z location (Plan.hasPlace_iff.mpr ⟨nx, _, hx, rfl, congrArg some hr⟩)
        (Plan.hasPlace_store.mpr ⟨nz, hz⟩))
    hdone hm
  refine ⟨l, o, m, hl, h.plan.wellFormed, h.plan.acyclic, hbuilt, ho, hm, hwaits, ?_, ?_⟩
  · intro z location hz
    obtain ⟨name, hz⟩ := Plan.hasPlace_store.mp hz
    exact hstored z name location hz
  · exact fun location hnone => hkept location fun z name hz =>
      hnone z (Plan.hasPlace_store.mpr ⟨name, hz⟩)

/-- Taken in another order, the same statements bring a storage to the same end, as long as it is
clear which store writes a location and which loads come behind it. -/
theorem final_of_reordered (hperm : script.statements.Perm script'.statements)
    (hnames : (script.statements.flatMap Statement.names).Nodup)
    (hkeys : (script.statements.map Statement.keys).sum < 2 ^ 64)
    (hexprs : ∀ st ∈ script.statements, st.hasKeys = true)
    (hs : Finishes script resolver directory storage s P)
    (hs' : Finishes script' resolver directory storage s' P')
    (hstores : StoredOnce s.plan) (hstores' : StoredOnce s'.plan)
    (hloops : LoopFree s.plan) (hloops' : LoopFree s'.plan) (location : String) :
    (Engine.execute P storage).2.get? location = (Engine.execute P' storage).2.get? location := by
  have hnames' : (script'.statements.flatMap Statement.names).Nodup :=
    (hperm.flatMap_right _).nodup_iff.mp hnames
  have hkeys' : (script'.statements.map Statement.keys).sum < 2 ^ 64 := by
    rwa [← (hperm.map Statement.keys).sum_nat]
  have hexprs' : ∀ st ∈ script'.statements, st.hasKeys = true := fun st hst =>
    hexprs st (hperm.mem_iff.mpr hst)
  obtain ⟨l, o, m, hl, h⟩ := exists_outcome hnames hkeys hexprs hs hstores hloops
  obtain ⟨l', o', m', hl', h'⟩ := exists_outcome hnames' hkeys' hexprs' hs' hstores' hloops'
  refine Outcome.same h h' (List.rel_perm_imp (fun a b c hb hc => ?_) hl hl' hperm) location
  exact Except.ok.inj (hb.symm.trans hc)

/-! ## Orders of one script -/

/-- Whether a new session takes the script, all jobs are completed, and the session and the storage
that is left behind pass a test. -/
def endsWith (script : Script) (storage : Storage) (test : Session → Storage → Bool) : Bool :=
  match script.run { directory := "/" } with
  | .ok _ s => (Prepared.ofPlan s.plan).toOption.any fun P =>
    ((List.range P.stages.length).all fun i =>
      ((Engine.execute P storage).1[i]?).any Job.isCompleted) &&
        test s (Engine.execute P storage).2
  | .error _ _ => false

theorem exists_finishes (script : Script) (storage : Storage) (test : Session → Storage → Bool)
    (h : endsWith script storage test = true) :
    ∃ s P, Finishes script .path "/" storage s P ∧
      test s (Engine.execute P storage).2 = true := by
  unfold endsWith at h
  cases hrun : script.run { directory := "/" } with
  | error e s => simp [hrun] at h
  | ok u s =>
    rw [hrun] at h
    dsimp only at h
    cases hP : Prepared.ofPlan s.plan with
    | error e => simp [hP, Except.toOption] at h
    | ok P =>
      rw [hP] at h
      obtain ⟨hdone, htest⟩ := Bool.and_eq_true_iff.mp h
      refine ⟨s, P, ⟨hrun, hP, fun i hi => ?_⟩, htest⟩
      exact (Option.any_eq_true _ _).mp (List.all_eq_true.mp hdone i (List.mem_range.mpr hi))

/-- What is kept of one input and all of another go to one place. -/
def collecting : List Statement :=
  [.load "A" "/a" none, .load "B" "/b" none,
    .filter "F" "A"
      (.mapping [(.string "gt", .sequence [.mapping [(.string "col", .int 0)], .int 1])]),
    .union "U" ["F", "B"], .store "U" "out"]

/-- What is in that place is copied. -/
def copying : List Statement := [.load "C" "/out" none, .store "C" "/copy"]

/-- Numbers in two places. -/
def numbers : Storage :=
  (({} : Storage).insert "/a" [[.int 1], [.int 2]]).insert "/b" [[.int 3]]

/-- The copy may be asked for before what is copied. -/
theorem copying_first : ∃ s P s' P',
    Finishes { statements := copying ++ collecting } .path "/" numbers s P ∧
    Finishes { statements := collecting ++ copying } .path "/" numbers s' P' ∧
    ∀ location, (Engine.execute P numbers).2.get? location =
      (Engine.execute P' numbers).2.get? location := by
  obtain ⟨s, P, hs, htest⟩ := exists_finishes { statements := copying ++ collecting } numbers
    (fun s _ => StoredOnce s.plan && LoopFree s.plan) (by decide +kernel)
  obtain ⟨s', P', hs', htest'⟩ := exists_finishes { statements := collecting ++ copying } numbers
    (fun s _ => StoredOnce s.plan && LoopFree s.plan) (by decide +kernel)
  simp only [Bool.and_eq_true, decide_eq_true_eq] at htest htest'
  exact ⟨s, P, s', P', hs, hs', final_of_reordered List.perm_append_comm (by decide +kernel)
    (by decide +kernel) (by decide +kernel) hs hs' htest.1 htest'.1 htest.2 htest'.2⟩

/-- The order of statements does not matter to plans of a kind. -/
def OrderFree (kind : Plan → Prop) : Prop :=
  ∀ (script script' : Script) (resolver : Location.Resolver) (directory : String)
    (storage : Storage) (s s' : Session) (P P' : Prepared),
    script.statements.Perm script'.statements →
    (script.statements.flatMap Statement.names).Nodup →
    Finishes script resolver directory storage s P →
    Finishes script' resolver directory storage s' P' → kind s.plan → kind s'.plan →
    ∀ location, (Engine.execute P storage).2.get? location =
      (Engine.execute P' storage).2.get? location

/-- Two parts of a script that leave different numbers of records at a location. -/
theorem not_orderFree {kind : Plan → Prop} [DecidablePred kind] (l l' : List Statement)
    (location : String) (n n' : Nat) (hnames : ((l ++ l').flatMap Statement.names).Nodup)
    (hn : n ≠ n')
    (h : endsWith { statements := l ++ l' } numbers fun s t =>
      kind s.plan && (t.get? location).map List.length == some n)
    (h' : endsWith { statements := l' ++ l } numbers fun s t =>
      kind s.plan && (t.get? location).map List.length == some n') : ¬OrderFree kind := by
  intro hfree
  obtain ⟨s, P, hs, htest⟩ := exists_finishes _ _ _ h
  obtain ⟨s', P', hs', htest'⟩ := exists_finishes _ _ _ h'
  simp only [Bool.and_eq_true, decide_eq_true_eq, beq_iff_eq] at htest htest'
  have hsame := hfree _ _ _ _ _ s s' P P' List.perm_append_comm hnames hs hs' htest.1 htest'.1
  rw [hsame location, htest'.2] at htest
  exact hn (Option.some.inj htest.2).symm

/-- Records are copied from one place to another. -/
def moving (name source target : String) : List Statement :=
  [.load name source none, .store name target]

/-- The order of statements matters when two stores write one location, and when each of two loads
could wait for what is made of the other one. -/
theorem order_matters :
    ¬OrderFree (fun _ => True) ∧ ¬OrderFree LoopFree ∧ ¬OrderFree StoredOnce := by
  refine ⟨not_orderFree (moving "A" "/a" "/out") (moving "B" "/b" "/out") "/out" 1 2 ?_ ?_ ?_ ?_,
    not_orderFree (moving "A" "/a" "/out") (moving "B" "/b" "/out") "/out" 1 2 ?_ ?_ ?_ ?_,
    not_orderFree (moving "A" "/a" "/b") (moving "B" "/b" "/a") "/a" 1 2 ?_ ?_ ?_ ?_⟩ <;>
  decide +kernel

end Session

end Dataflow

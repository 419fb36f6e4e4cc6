import Dataflow.Proofs.Rescan.Edits
import Dataflow.Proofs.Rescan.Moving
import Dataflow.Proofs.Rewrite.Default

/-!
# Which filters are fit to be moved

Whether the search behind a `ForEach` finds a filter, and what that filter becomes in front of it,
is read off the identities of the columns behind the `ForEach` and in front of it. The search asks
for both; once the schema in front is known, asking for the one behind takes no identities. So what
is found can be told from the flow that all requests of a run lead to (`crossing`), whenever the
search takes place.
-/

namespace Dataflow

open Dataflow.Graph

namespace Flow

variable {W W' : Flow} {K : Table} {r x F : NodeId} {n : Nat} {op : Operator} {rank : NodeId → Nat}
  {L : List NodeId}

/-! ## Requests that settle something -/

/-- Every operator has a rank above those that its rows come from, and below `n`. -/
structure Within (W : Flow) (rank : NodeId → Nat) (n : Nat) : Prop where
  graded : W.Graded rank
  bounded : ∀ r, (W.op r).isSome → rank r < n

theorem Within.like (h : W.Within rank n) (hlike : Like W W') : W'.Within rank n where
  graded := h.graded.like hlike
  bounded r hr := h.bounded r (by rwa [← hlike.isSome])

theorem Holds.known_op (h : W.Holds K) {t : Option Schema} (hr : K r = some t) :
    (W.op r).isSome := by
  obtain ⟨op, hop, -⟩ := h r t hr
  rw [hop]
  rfl

/-- The schemas of the inputs are known. -/
def settled (W : Flow) (K : Table) (F : NodeId) : Bool := (W.inputs F).all fun x => (K x).isSome

theorem settled_iff : W.settled K F = true ↔ ∀ x ∈ W.inputs F, (K x).isSome := List.all_eq_true

theorem settled_mono {K' : Table} (h : W.settled K F = true) (hle : K.Le K') (hlike : Like W W') :
    W'.settled K' F = true := by
  rw [settled_iff] at h ⊢
  intro x hx
  rw [hlike.inputs] at hx
  exact hle.isSome (h x hx)

/-- What is known has known inputs. -/
theorem Holds.settled (h : W.Holds K) {t : Option Schema} (hr : K r = some t) :
    W.settled K r = true := by
  obtain ⟨-, -, hin, -⟩ := h r t hr
  exact settled_iff.mpr hin

/-- Asks for the schemas of the inputs. -/
def askInputs (n : Nat) (W : Flow) (F : NodeId) : Flow := (askAll (ask n) (W.inputs F) W).2

theorem Like.askInputs : Like W (askInputs n W F) := .askAll (.ask n) _ _

theorem Holds.askInputs_settled (h : W.Holds K) (hW : W.Within rank n)
    (hF : W.settled K F = true) : askInputs n W F = W := by
  have hall : Flow.askAll (Flow.ask n) (W.inputs F) W =
      ((W.inputs F).map fun x => (K x).join, W) := by
    refine askAll_known fun x hx => ?_
    obtain ⟨t, ht⟩ := Option.isSome_iff_exists.mp (settled_iff.mp hF x hx)
    exact ⟨t, ht, h.ask_known hW.graded ht (hW.bounded x (h.known_op ht))⟩
  rw [askInputs, hall]

/-- Where the inputs are known and no identities are taken, a request changes nothing. -/
theorem Holds.ask_settled (h : W.Holds K) (hW : W.Within rank n) (hF : W.settled K F = true)
    (hop : W.op F = some op) (hne : op.type ≠ .union) : (Flow.ask n F W).2 = W := by
  have hlt := hW.bounded F (by rw [hop]; rfl)
  obtain ⟨m, rfl⟩ : ∃ m, n = m + 1 := ⟨n - 1, by omega⟩
  have hall : Flow.askAll (Flow.ask m) (W.inputs F) W =
      ((W.inputs F).map fun x => (K x).join, W) := by
    refine askAll_known fun x hx => ?_
    obtain ⟨t, ht⟩ := Option.isSome_iff_exists.mp (settled_iff.mp hF x hx)
    have := (hW.graded F x hx).1
    exact ⟨t, ht, h.ask_known hW.graded ht (by omega)⟩
  have hop' : (Flow.askAll (Flow.ask m) (W.inputs F) W).2.op F = some op := by
    rw [hall]
    exact hop
  rw [ask_of_op hop', hall,
    Operator.bareDerive_of_ne_union hne]
  exact note_self hop

/-- After the inputs were asked for, they are known. -/
theorem Holds.askInputs (h : W.Holds K) (hW : W.Within rank n) :
    ∃ K', K.Le K' ∧ (Flow.askInputs n W F).Holds K' ∧
      (Flow.askInputs n W F).settled K' F = true := by
  obtain ⟨K', hle, hholds, -, hin⟩ := @Holds.askAll (Flow.ask n) (W.inputs F) _ _ h
    fun x hx W' K' hlike h' => by
      have hlike' := hW.like hlike
      have hx' : (W'.op x).isSome := by
        rw [hlike.isSome]
        exact (hW.graded F x hx).2
      exact ⟨.ask _ _ _, h'.ask hlike'.graded hx' (hlike'.bounded x hx')⟩
  refine ⟨K', hle, hholds, settled_iff.mpr fun x hx => hin x ?_⟩
  rwa [Like.askInputs.inputs] at hx

/-- Whatever was known stays so. -/
theorem Holds.foldl (h : W.Holds K) (hW : W.Within rank n) :
    ∃ K', K.Le K' ∧ (L.foldl (Flow.askInputs n) W).Holds K' ∧
      Like W (L.foldl (Flow.askInputs n) W) := by
  induction L generalizing W K with
  | nil => exact ⟨K, .refl, h, .refl⟩
  | cons F L ih =>
    obtain ⟨K₁, hle₁, h₁, -⟩ := h.askInputs (F := F) hW
    obtain ⟨K₂, hle₂, h₂, hlike⟩ := ih h₁ (hW.like .askInputs)
    exact ⟨K₂, hle₁.trans hle₂, h₂, Like.askInputs.trans hlike⟩

/-- Requests for the inputs of these lead from one flow to the other. -/
def LeadsOn (n : Nat) (W W' : Flow) : Prop := ∃ L : List NodeId, L.foldl (askInputs n) W = W'

/-- What is known now is what a request says later. -/
theorem LeadsOn.ask_eq (hlead : LeadsOn n W W') (h : W.Holds K) (hW : W.Within rank n)
    {t : Option Schema} (hr : K r = some t) : ask n r W' = (t, W') := by
  obtain ⟨L, rfl⟩ := hlead
  obtain ⟨K', hle, h', hlike⟩ := h.foldl (L := L) hW
  have hW' := hW.like hlike
  exact h'.ask_known hW'.graded (hle r t hr) (hW'.bounded r (h'.known_op (hle r t hr)))

theorem LeadsOn.like (hlead : LeadsOn n W W') : Like W W' := by
  obtain ⟨L, rfl⟩ := hlead
  induction L generalizing W with
  | nil => exact .refl
  | cons F L ih => exact Like.askInputs.trans ih

/-- What a request for a settled operator says is what it says later. -/
theorem LeadsOn.ask_settled (hlead : LeadsOn n W W') (h : W.Holds K) (hW : W.Within rank n)
    (hF : W.settled K F = true) (hop : W.op F = some op) (hne : op.type ≠ .union) :
    (ask n F W').1 = (ask n F W).1 := by
  have hsome : (W.op F).isSome := by rw [hop]; rfl
  obtain ⟨K', -, h', hF'⟩ := h.ask hW.graded hsome (hW.bounded F hsome)
  rw [h.ask_settled hW hF hop hne] at h'
  rw [hlead.ask_eq h' hW hF']

/-! ## Columns -/

/-- The identities of columns of a single input, in front of others. -/
def columnsIn (o : Option Schema) : List (Nat × Nat) → List Uid → Option (List Uid)
  | [], uids => some uids
  | (_, j) :: rest, uids =>
    match Schema.uidAt? o j with
    | none => none
    | some uid => columnsIn o rest (Plan.insertUid uid uids)

/-- All columns that the formula reads behind `o` are known and available. -/
def Fits (f : Formula) (o : Option Schema) (available : List Uid) : Prop :=
  ∃ uids, columnsIn o f.columns [] = some uids ∧ uids.all available.contains = true

/-- What is told of moving filters up by the schemas that are derived in the end. -/
def crossing (n : Nat) (W : Flow) : Net.Crossing where
  fit F f := ∃ r s, W.inputs F = [r] ∧ (ask n r W).1 = some s ∧ Fits f (ask n F W).1 (Schema.uids s)
  moved F f :=
    match W.inputs F with
    | [r] =>
      match (ask n r W).1, (ask n F W).1 with
      | some s, some o =>
        match Formula.remapColumns (fun _ i => Rule.placeAbove s o i) f with
        | .ok _ g => g
        | .error _ _ => f
      | _, _ => f
    | _ => f

/-- For what is settled it is told already. -/
theorem LeadsOn.crossing_eq (hlead : LeadsOn n W W') (h : W.Holds K) (hW : W.Within rank n)
    (hF : W.settled K F = true) (hop : W.op F = some op) (hne : op.type ≠ .union) :
    (crossing n W').fit F = (crossing n W).fit F ∧
      (crossing n W').moved F = (crossing n W).moved F := by
  have hself := hlead.ask_settled h hW hF hop hne
  have hinputs := hlead.like.inputs
  have hask : ∀ r, W.inputs F = [r] → (ask n r W').1 = (ask n r W).1 := fun r hr => by
    obtain ⟨t, ht⟩ := Option.isSome_iff_exists.mp (settled_iff.mp hF r (by simp [hr]))
    rw [hlead.ask_eq h hW ht, h.ask_known hW.graded ht (hW.bounded r (h.known_op ht))]
  constructor
  · funext f
    refine propext ⟨?_, ?_⟩
    · rintro ⟨r, s, hr, hs, hfits⟩
      rw [hinputs] at hr
      exact ⟨r, s, hr, by rwa [← hask r hr], by rwa [← hself]⟩
    · rintro ⟨r, s, hr, hs, hfits⟩
      exact ⟨r, s, by rwa [hinputs], by rwa [hask r hr], by rwa [hself]⟩
  · funext f
    simp only [crossing, hinputs, hself]
    split
    · rename_i r hr
      rw [hask r hr]
    · rfl

end Flow

namespace Net

variable {N : Net} {fit : Formula → Prop} {steps : Nat} {found : Option NodeId} {x y : NodeId}
  {name : Option String} {f : Formula}

/-- What a search behind `x` finds is the first filter that is fit, and if it finds nothing, then
there is none as far as it has come. -/
structure Finds (N : Net) (fit : Formula → Prop) (x : NodeId) (steps : Nat)
    (found : Option NodeId) :
    Prop where
  hit : ∀ G, found = some G → ∃ path name f, N.Climb fit G x path ∧ N.IsFilter G name f ∧ fit f
  miss : found = none → ∀ G path name f, N.Climb fit G x path → path.length ≤ steps →
    N.IsFilter G name f → ¬fit f

theorem isFilter_unique {name' : Option String} {g : Formula} (h : N.IsFilter x name f)
    (h' : N.IsFilter x name' g) : f = g := by
  have heq := h.symm.trans h'
  simp only [Option.some.injEq, Operator.mk.injEq, Operation.filter.injEq] at heq
  exact heq.2.1

/-- The search ends at an operator that is not a filter. -/
theorem Finds.of_not_filter (houts : N.outs x = [y])
    (hy : ∀ name f, ¬N.IsFilter y name f) : Finds N fit x steps none where
  hit _ h := by cases h
  miss _ G path name f hclimb _ hG := by
    cases hclimb with
    | last houts' =>
      obtain rfl := List.singleton_inj.mp (houts.symm.trans houts')
      exact absurd hG (hy _ _)
    | step houts' _ hy' =>
      obtain rfl := List.singleton_inj.mp (houts.symm.trans houts')
      exact absurd hy' (hy _ _)

/-- A path ends where there is not just one way on. -/
theorem Finds.of_branching (h : ∀ y, N.outs x ≠ [y]) : Finds N fit x steps none where
  hit _ h := by cases h
  miss _ G path name f hclimb := by
    cases hclimb with
    | last houts => exact absurd houts (h _)
    | step houts => exact absurd houts (h _)

/-- The search goes on behind a filter that is not fit. -/
theorem Finds.step
    (houts : N.outs x = [y]) (hins : N.ins y = [x]) (hy : N.IsFilter y name f) (hf : ¬fit f)
    (h : Finds N fit y steps found) : Finds N fit x (steps + 1) found where
  hit G hfound := by
    obtain ⟨path, name', g, hclimb, hG⟩ := h.hit G hfound
    exact ⟨x :: path, name', g, .step houts hins hy hf hclimb, hG⟩
  miss hfound G path name g hclimb hlen hG hg := by
    cases hclimb with
    | last houts' =>
      obtain rfl := List.singleton_inj.mp (houts.symm.trans houts')
      exact hf (isFilter_unique hy hG ▸ hg)
    | step houts' _ _ _ hrest =>
      obtain rfl := List.singleton_inj.mp (houts.symm.trans houts')
      exact h.miss hfound G _ name g hrest (by simpa using hlen) hG hg

end Net

namespace Plan

open Dataflow.Flow

variable {p q : Plan} {W : Flow} {K : Table} {n : Nat} {rank : NodeId → Nat} {x y z r F G : NodeId}
  {t : Option Schema} {f : Formula} {name : Option String} {available : List Uid} {op : Operator}

/-! ## Requests -/

/-- The flow of a plan without cycles is no deeper than the plan is large. -/
theorem HasFlow.within (h : p.HasFlow W) (hp : p.Sound) (hv : p.Valid) :
    ∃ rank, W.Within rank p.size := by
  obtain ⟨rank, hrank, hbound⟩ := hv.acyclic.bounded hp.wellFormed
  refine ⟨rank, h.graded hp.wellFormed hrank, fun r hr => hbound r ?_⟩
  exact (Under.self (h.op r ▸ hr)).contains

/-- A plan, its flow and what is known of it. -/
structure Tracks (n : Nat) (rank : NodeId → Nat) (p : Plan) (W : Flow) (K : Table) : Prop where
  fit : p.CanMerge
  flow : p.HasFlow W
  holds : W.Holds K
  within : W.Within rank n
  size : p.size ≤ n

namespace Tracks

theorem ready (h : Tracks n rank p W K) : p.Ready := h.fit.sound.ready h.fit.valid

/-- A request. -/
theorem request (h : Tracks n rank p W K) (hx : p.Under x r) (hrun : Plan.schema x p = .ok t q) :
    Extends p q ∧ (W.ask n r).1 = t.map Schema.unnamed ∧ ∃ K', K.Le K' ∧
      Tracks n rank q (W.ask n r).2 K' ∧ K' r = some (t.map Schema.unnamed) := by
  obtain ⟨hext, -⟩ := schema_eq_ok h.fit.sound.coherent hrun
  obtain ⟨ht, hflow⟩ := h.flow.schema h.ready hx hrun h.size
  have hr : (W.op r).isSome := by
    rw [h.flow.op]
    exact hx.lasting
  obtain ⟨K', hle, hholds, hK'⟩ := h.holds.ask h.within.graded hr (h.within.bounded r hr)
  refine ⟨hext, ht, K', hle, ⟨fitness_canMerge.asked _ _ h.fit hext, hflow, hholds,
    h.within.like (.ask _ _ _), ?_⟩, by rw [hK', ht]⟩
  rw [hext.graph_size h.ready]
  exact h.size

/-- A request for what is behind a settled operator. -/
theorem request_settled (h : Tracks n rank p W K) (hx : p.Under x F) (hF : W.settled K F = true)
    (hne : ¬p.HasType F .union) (hrun : Plan.schema x p = .ok t q) :
    Extends p q ∧ (W.ask n F).1 = t.map Schema.unnamed ∧ Tracks n rank q W K := by
  obtain ⟨hext, ht, K', hle, hq, -⟩ := h.request hx hrun
  obtain ⟨op, hop⟩ := Option.isSome_iff_exists.mp hx.lasting
  have htype := (hasType_of_lasting hop).1
  have hstill : (W.ask n F).2 = W := h.holds.ask_settled h.within hF ((h.flow.op F).trans hop)
    fun hunion => hne (hunion ▸ htype)
  rw [hstill] at hq
  exact ⟨hext, ht, hq.fit, hq.flow, h.holds, h.within, hq.size⟩

/-- The identities of columns behind a settled operator. -/
theorem columnUids (hF : W.settled K F = true) : ∀ {columns : List (Nat × Nat)}
    {known : List Uid} {found : Option (List Uid)} {p q : Plan}, Tracks n rank p W K →
    p.dataInputs x = [y] → p.Under y F → ¬p.HasType F .union → (∀ c ∈ columns, c.1 = 0) →
    Plan.columnUids x columns known p = .ok found q →
    Extends p q ∧ found = columnsIn (W.ask n F).1 columns known ∧ Tracks n rank q W K := by
  intro columns
  induction columns with
  | nil =>
    intro known found p q h _ _ _ _ hrun
    obtain ⟨rfl, rfl⟩ := EStateM.Result.ok.inj hrun
    exact ⟨.refl h.fit.sound.coherent, rfl, h⟩
  | cons c columns ih =>
    intro known found p q h hins hy hne hzero hrun
    obtain ⟨i, j⟩ := c
    obtain ⟨hi, hrest⟩ := List.forall_mem_cons.mp hzero
    obtain rfl : i = 0 := hi
    unfold Plan.columnUids at hrun
    obtain ⟨uid?, p₁, hone, hrun⟩ := Pass.bind_eq_ok.mp hrun
    unfold columnUid at hone
    rw [Pass.bind_of_ok Pass.get_apply, hins] at hone
    obtain ⟨t, p₂, ht, hone⟩ := Pass.bind_eq_ok.mp hone
    obtain ⟨rfl, rfl⟩ := EStateM.Result.ok.inj hone
    obtain ⟨hext, hask, h₁⟩ := h.request_settled hy hF hne ht
    have hat : Schema.uidAt? (W.ask n F).1 j = Schema.uidAt? t j := by
      rw [hask, Schema.uidAt?_unnamed]
    rw [columnsIn, hat]
    change (match Schema.uidAt? t j with
      | none => pure none
      | some uid => Plan.columnUids x columns (insertUid uid known) : Edit _) p₂ = _ at hrun
    cases hcase : Schema.uidAt? t j with
    | none =>
      rw [hcase] at hrun
      obtain ⟨rfl, rfl⟩ := EStateM.Result.ok.inj hrun
      exact ⟨hext, rfl, h₁⟩
    | some uid =>
      rw [hcase] at hrun
      obtain ⟨hext', hfound, h₂⟩ := ih h₁ (hext.alike.dataInputs.trans hins) (hy.alike hext.alike)
        (fun hu => hne (hext.alike.hasType hu)) hrest hrun
      exact ⟨hext.trans hext', hfound, h₂⟩

/-! ## The search -/

theorem firstEligible (hF : W.settled K F = true) : ∀ {steps : Nat} {x y : NodeId}
    {found : Option NodeId} {p q : Plan}, Tracks n rank p W K → p.graph.successors x = [y] →
    p.Under x F → ¬p.HasType F .union → Rule.firstEligible available steps y p = .ok found q →
    Extends p q ∧ Tracks n rank q W K ∧
      p.net.Finds (Fits · (W.ask n F).1 available) x steps found := by
  intro steps
  induction steps with
  | zero =>
    intro x y found p q h _ _ _ hrun
    obtain ⟨rfl, rfl⟩ := EStateM.Result.ok.inj hrun
    refine ⟨.refl h.fit.sound.coherent, h, (fun _ hG => by cases hG),
      fun _ G path name f hclimb hlen => ?_⟩
    have := List.length_pos_of_mem hclimb.mem_self
    omega
  | succ steps ih =>
    intro x y found p q h houts hx hne hrun
    have hwf := h.fit.sound.wellFormed
    obtain ⟨ty, hty⟩ := exists_hasType (hwf.target (a := x) (b := y) (by simp [houts]))
    unfold Rule.firstEligible at hrun
    rw [Pass.bind_of_ok Pass.get_apply, Pass.bind_of_ok (ofResult_eq_ok.mpr
      ⟨(Extends.refl h.fit.sound.coherent).typeOf hty, rfl⟩)] at hrun
    by_cases hfilter : ty = .filter
    · subst hfilter
      obtain ⟨name, f, hf⟩ := hty.isFilter
      have hins := hf.predecessors_eq h.fit.sound h.fit.valid (x := x) (by simp [houts])
      obtain ⟨-, -, hcols, -⟩ := hf.predicate h.fit.sound h.fit.valid
      rw [if_neg (by simp), Pass.bind_of_ok Pass.get_apply, Pass.bind_of_ok (ofResult_eq_ok.mpr
        ⟨filterPredicate_eq_ok.mpr ⟨name, hf⟩, rfl⟩)] at hrun
      obtain ⟨uids, p₁, huids, hrun⟩ := Pass.bind_eq_ok.mp hrun
      obtain ⟨hext, hfound, h₁⟩ := columnUids hF h (hf.dataInputs.trans hins) hx hne
        (fun c hc => Nat.lt_one_iff.mp (hcols c hc)) huids
      -- the search goes on behind a filter that is not fit
      have hnext : ¬Fits f (W.ask n F).1 available → (match p₁.graph.successors y with
          | [next] => Rule.firstEligible available steps next
          | _ => Pure.pure none : Edit (Option NodeId)) p₁ = .ok found q →
          Extends p q ∧ Tracks n rank q W K ∧
            p.net.Finds (Fits · (W.ask n F).1 available) x (steps + 1) found := by
        intro hnot hrun
        rw [hext.alike.successors] at hrun
        rcases hsuc : p.graph.successors y with _ | ⟨next, _ | ⟨_, _⟩⟩ <;> simp only [hsuc] at hrun
        · obtain ⟨rfl, rfl⟩ := EStateM.Result.ok.inj hrun
          exact ⟨hext, h₁, .step houts hins hf hnot (.of_branching fun z => by simp [hsuc])⟩
        · obtain ⟨hext', h₂, hfinds⟩ := ih h₁ ((hext.alike.successors y).trans hsuc)
            (.filter (hext.alike.symm.hasType hty) ((hext.alike.predecessors y).trans hins)
              (hx.alike hext.alike)) (fun hu => hne (hext.alike.hasType hu)) hrun
          rw [hext.alike.net_eq] at hfinds
          exact ⟨hext.trans hext', h₂, .step houts hins hf hnot hfinds⟩
        · obtain ⟨rfl, rfl⟩ := EStateM.Result.ok.inj hrun
          exact ⟨hext, h₁, .step houts hins hf hnot (.of_branching fun z => by simp [hsuc])⟩
      cases uids with
      | none =>
        refine hnext ?_ hrun
        rintro ⟨uids, huids, -⟩
        rw [← hfound] at huids
        cases huids
      | some uids =>
        by_cases hall : uids.all available.contains = true
        · simp only [hall, if_true] at hrun
          obtain ⟨rfl, rfl⟩ := EStateM.Result.ok.inj hrun
          refine ⟨hext, h₁, ?_, fun hnone => by cases hnone⟩
          rintro G hG
          obtain rfl := Option.some.inj hG
          exact ⟨[x], name, f, .last houts hins, hf, uids, hfound.symm, hall⟩
        · simp only [hall, Bool.false_eq_true, if_false] at hrun
          refine hnext ?_ hrun
          rintro ⟨uids', huids', hall'⟩
          obtain rfl : uids = uids' := Option.some.inj (hfound.trans huids')
          exact hall hall'
    · rw [if_pos hfilter] at hrun
      obtain ⟨rfl, rfl⟩ := EStateM.Result.ok.inj hrun
      exact ⟨.refl h.fit.sound.coherent, h, .of_not_filter houts fun name f hf =>
        hfilter (hty.unique (Plan.IsFilter.hasType hf))⟩

/-- A `ForEach` has one input, and its rows come from one operator. -/
theorem exists_input (h : Tracks n rank p W K) (hF : p.HasType F .forEach) : ∃ input r,
    p.graph.predecessors F = [input] ∧ p.Under input r ∧ W.inputs F = [r] := by
  obtain ⟨op, hop, ht⟩ := hF
  have hfit := (h.fit.valid.operators F op hop).other (by simp [ht])
  have hlen : (p.graph.predecessors F).length = 1 := by
    have h1 := hfit.enough
    have h2 := hfit.single (by rw [ht]; rfl)
    rw [ht] at h1
    change 1 ≤ _ at h1
    omega
  obtain ⟨input, hinput⟩ := List.length_eq_one_iff.mp hlen
  have hins : p.dataInputs F = [input] := by
    rw [dataInputs_of_operator? hop, if_neg (by simp [ht]), hinput]
  have hlast : (W.op F).isSome := by
    rw [h.flow.op]
    exact lasting_of_hasType ⟨op, hop, ht⟩ (by simp)
  have hall := h.flow.inputs F hlast
  rw [hins] at hall
  obtain ⟨r, rest, hr, hrest, heq⟩ := List.forall₂_cons_left_iff.mp hall
  obtain rfl := List.forall₂_nil_left_iff.mp hrest
  exact ⟨input, r, hinput, hr, heq⟩

/-- The search behind a `ForEach` asks for the schema of its input. -/
theorem eligibleFilter {found : Option (NodeId × NodeId)} (h : Tracks n rank p W K)
    (hF : p.HasType F .forEach) (houts : p.graph.successors F = [y])
    (hrun : Rule.eligibleFilter F p = .ok found q) :
    Extends p q ∧ ∃ K', K.Le K' ∧ Tracks n rank q (askInputs n W F) K' ∧
      (askInputs n W F).settled K' F = true ∧
      p.net.Finds ((crossing n (askInputs n W F)).fit F) F p.size (found.map Prod.snd) := by
  obtain ⟨input, r, hinput, hr, hins⟩ := h.exists_input hF
  have hask : askInputs n W F = (W.ask n r).2 := by
    unfold askInputs
    rw [hins]
    rfl
  unfold Rule.eligibleFilter at hrun
  rw [Pass.bind_of_ok Pass.get_apply, show p.predecessors F = [input] from hinput,
    show p.successors F = [y] from houts] at hrun
  obtain ⟨t, p₁, ht, hrun⟩ := Pass.bind_eq_ok.mp hrun
  obtain ⟨hext, -, K', hle, h₁, hK'⟩ := h.request hr ht
  rw [← hask] at h₁
  have hinputs : (askInputs n W F).inputs F = [r] := by rw [Like.askInputs.inputs, hins]
  have hsettled : (askInputs n W F).settled K' F = true := by
    rw [settled_iff, hinputs]
    intro x hx
    obtain rfl := List.mem_singleton.mp hx
    rw [hK']
    rfl
  have hknown : (Flow.ask n r (askInputs n W F)).1 = t.map Schema.unnamed := by
    rw [h₁.holds.ask_known h₁.within.graded hK' (h₁.within.bounded r (h₁.holds.known_op hK'))]
  cases t with
  | none =>
    obtain ⟨rfl, rfl⟩ := EStateM.Result.ok.inj hrun
    refine ⟨hext, K', hle, h₁, hsettled, (fun _ hG => by cases hG), ?_⟩
    rintro - G path name f - - - ⟨r', s, hr', hs, -⟩
    obtain rfl := List.singleton_inj.mp (hinputs.symm.trans hr')
    rw [hknown] at hs
    cases hs
  | some s =>
    obtain ⟨G?, p₂, hG?, hrun⟩ := Pass.bind_eq_ok.mp hrun
    obtain ⟨rfl, rfl⟩ := EStateM.Result.ok.inj hrun
    have hF₁ : p₁.HasType F .forEach := hext.alike.symm.hasType hF
    obtain ⟨hext', h₂, hfinds⟩ := firstEligible hsettled h₁ ((hext.alike.successors F).trans houts)
      (.self (lasting_of_hasType hF₁ (by simp))) (hF₁.not (by simp)) hG?
    have hfit : (crossing n (askInputs n W F)).fit F =
        (Fits · ((askInputs n W F).ask n F).1 s.uids) := by
      funext f
      refine propext ⟨?_, fun hf => ⟨r, s.unnamed, hinputs, hknown, by rwa [Schema.uids_unnamed]⟩⟩
      rintro ⟨r', s', hr', hs', hfits⟩
      obtain rfl := List.singleton_inj.mp (hinputs.symm.trans hr')
      obtain rfl : s.unnamed = s' := Option.some.inj (hknown.symm.trans hs')
      rwa [Schema.uids_unnamed] at hfits
    refine ⟨hext.trans hext', K', hle, h₂, hsettled, ?_⟩
    rw [hfit, ← hext.alike.net_eq]
    cases G? <;> exact hfinds

end Tracks

/-! ## The move -/

theorem exists_ranked (hp : p.Sound) (hv : p.Valid) : ∃ rank, p.net.Ranked rank := by
  obtain ⟨rank, hrank⟩ := hv.acyclic
  exact ⟨rank, hp.wellFormed.edge, hrank⟩

/-- A moved filter changes places with those on its path. -/
theorem Pushes.net_eq {path path' : List NodeId} {input : NodeId} {f' : Formula}
    {fit : Formula → Prop}
    (h : Pushes p q input F G path f f') (haround : LeadsAround p q input F G) (hp : p.Sound)
    (hv : p.Valid) (hclimb : p.net.Climb fit G F path') (hG : q.IsFilter G name f') :
    q.net = p.net.move path' G { name, operation := .filter f' } := by
  obtain ⟨rank, hranked⟩ := exists_ranked hp hv
  obtain ⟨a, hapath, ha, -⟩ := h.exists_above hp.wellFormed
  have hfirst : p.graph.successors input ≠ [] := fun hnone => by
    have := (hp.wellFormed.edge input F).mpr (by simp [h.source])
    simp [hnone] at this
  have hinput : rank input < rank F := hranked.up input F
    ((hp.wellFormed.edge input F).mpr (by simp [h.source]))
  have hle := (h.leads.rank_of_mem hranked.up hapath).1
  have hina : input ≠ a := by rintro rfl; omega
  refine Net.ext ?_ ?_ ?_ <;> funext z
  · by_cases hz : z = G
    · rw [hz, Net.op_move_self]
      exact hG
    · rw [Net.op_move_of_ne hz]
      exact h.other z hz
  · rw [(hclimb.edges hranked ha z).1]
    show q.graph.successors z = _
    rw [haround a ha]
    by_cases hzG : z = G
    · rw [if_pos hzG, if_pos hzG]
    rw [if_neg hzG, if_neg hzG]
    by_cases hzin : z = input
    · rw [if_pos hzin, if_neg (hzin ▸ hina), hzin]
      rfl
    rw [if_neg hzin]
    by_cases hza : z = a
    · rw [if_pos hza, if_pos hza]
      rfl
    · rw [if_neg hza, if_neg hza]
      refine (map_renamed_of_notMem fun hmem => hzin ?_).symm
      simpa [h.source] using (hp.wellFormed.edge z F).mp hmem
  · rw [(hclimb.edges hranked ha z).2]
    show q.graph.predecessors z = _
    rw [h.predecessors a ha]
    by_cases hzG : z = G
    · rw [if_pos hzG, if_pos hzG]
      exact h.source.symm
    · rw [if_neg hzG, if_neg hzG]
      rfl

theorem placeAbove_unnamed {s o : Schema} {i : Nat} :
    Rule.placeAbove s.unnamed o.unnamed i = Rule.placeAbove s o i := by
  have hindex : ∀ uid, Schema.indexOfUid? s.unnamed uid = Schema.indexOfUid? s uid := fun uid => by
    unfold Schema.indexOfUid? Schema.indexWhere Schema.unnamed
    rw [List.findIdx?_map]
    rfl
  unfold Rule.placeAbove
  rw [Schema.getElem?_unnamed]
  cases o[i]? with
  | none => rfl
  | some c =>
    simp only [Option.map_some, hindex]
    rfl

/-- What moving a filter comes to: `G` is moved in front of `F` as the crossing tells. -/
structure MovedAs (C : Net.Crossing) (p q : Plan) (F G : NodeId) (path : List NodeId) : Prop where
  fit : q.CanMerge
  step : ∃ name f, p.net.Climb (C.fit F) G F path ∧ p.IsFilter G name f ∧ C.fit F f ∧
    q.net = p.net.move path G { name, operation := .filter (C.moved F f) }
  ids : q.graph.ids = p.graph.ids

namespace MovedAs

variable {C : Net.Crossing} {path : List NodeId} {ty : OperatorType} (h : MovedAs C p q F G path)

include h

theorem hasType : q.HasType z ty ↔ p.HasType z ty := by
  obtain ⟨name, f, -, hG, -, hnet⟩ := h.step
  have hop : ∀ z, q.core? z = (p.net.move path G _).op z := fun z => by
    rw [← hnet]
    rfl
  by_cases hz : z = G
  · have hq : q.IsFilter G name _ := (hop G).trans Net.op_move_self
    rw [hz]
    exact ⟨fun ht => ht.unique hq.hasType ▸ IsFilter.hasType hG,
      fun ht => ht.unique (IsFilter.hasType hG) ▸ hq.hasType⟩
  · rw [hasType_iff_core?, hasType_iff_core?, hop, Net.op_move_of_ne hz]
    rfl

theorem filter_of_mem (hz : z = G ∨ z ∈ path) (hzF : z ≠ F) : p.HasType z .filter := by
  obtain ⟨name, f, hclimb, hG, -⟩ := h.step
  rcases hz with rfl | hz
  · exact IsFilter.hasType hG
  · obtain ⟨name, f, hf⟩ := hclimb.filter_of_mem hz hzF
    exact IsFilter.hasType hf

/-- No other `ForEach` is on the way. -/
theorem eq_of_forEach (hz : z = G ∨ z ∈ path) (ht : p.HasType z .forEach) : z = F := by
  by_contra hne
  exact ht.not (by simp) (h.filter_of_mem hz hne)

theorem ne_forEach (hF : p.HasType F .forEach) : G ≠ F := by
  rintro rfl
  obtain ⟨_, _, -, hG, -⟩ := h.step
  exact hF.not (by simp) (IsFilter.hasType hG)

/-- The edges after a move. -/
theorem edges (hp : p.Sound) (hv : p.Valid) : ∃ a ∈ path, p.graph.successors a = [G] ∧ a ≠ G ∧
    (∀ z, q.graph.successors z = if z = G then [F] else if z = a then p.graph.successors G
      else (p.graph.successors z).map (renamed F G)) ∧
    ∀ z, q.graph.predecessors z = if z = G then p.graph.predecessors F else if z = F then [G]
      else (p.graph.predecessors z).map (renamed G a) := by
  obtain ⟨name, f, hclimb, -, -, hnet⟩ := h.step
  obtain ⟨rank, hranked⟩ := exists_ranked hp hv
  obtain ⟨a, hapath, ha⟩ := hclimb.exists_last
  have hlt := (hclimb.rank_of_mem hranked hapath).2
  refine ⟨a, hapath, ha, by rintro rfl; omega, fun z => ?_, fun z => ?_⟩
  · exact (congrFun (congrArg Net.outs hnet) z).trans (hclimb.edges hranked ha z).1
  · exact (congrFun (congrArg Net.ins hnet) z).trans (hclimb.edges hranked ha z).2

theorem sources (hp : p.Sound) (hv : p.Valid) (hF : p.graph.predecessors F ≠ []) :
    q.graph.sources = p.graph.sources := by
  obtain ⟨a, -, ha, -, -, hpre⟩ := h.edges hp hv
  have hG : p.graph.predecessors G ≠ [] := fun hnone => by
    have := (hp.wellFormed.edge a G).mp (by simp [ha])
    simp [hnone] at this
  have hiff : ∀ z, q.graph.predecessors z = [] ↔ p.graph.predecessors z = [] := fun z => by
    rw [hpre]
    split
    · rename_i hz
      exact ⟨fun hnone => absurd hnone hF, fun hnone => absurd (hz ▸ hnone) hG⟩
    split
    · rename_i hz
      exact ⟨fun hnone => absurd hnone (by simp), fun hnone => absurd (hz ▸ hnone) hF⟩
    · exact List.map_eq_nil_iff
  unfold Graph.sources
  rw [h.ids]
  refine List.filter_congr fun z _ => Bool.eq_iff_iff.mpr ?_
  rw [List.isEmpty_iff, List.isEmpty_iff, hiff]

/-- The order of the operators is as before, but for those that changed places. -/
theorem topologicalOrder_eq (hp : p.Sound) (hv : p.Valid) (hF : p.graph.predecessors F ≠ []) :
    q.graph.topologicalOrder = p.graph.topologicalOrder.map (List.map (Net.climb G path)) := by
  obtain ⟨name, f, hclimb, -, -, hnet⟩ := h.step
  have hrenamed : Graph.Renamed p.graph q.graph (Net.climb G path) := by
    refine ⟨(Net.climb G path).injective.injOn, fun z _ => ?_, fun z _ => ?_⟩
    · refine (congrFun (congrArg Net.outs hnet) _).trans ?_
      simp [Net.move]
    · refine (congrFun (congrArg Net.ins hnet) _).trans ?_
      simp [Net.move]
  refine hrenamed.topologicalOrder_eq hp.wellFormed ?_ ?_
  · rw [h.sources hp hv hF]
    conv_lhs => rw [← List.map_id p.graph.sources]
    refine List.map_congr_left fun z hz => ?_
    have hnone : p.graph.predecessors z = [] := by simpa using (List.mem_filter.mp hz).2
    have hout : ¬(z = G ∨ z ∈ path) := fun hmem => by
      by_cases hzF : z = F
      · exact hF (hzF ▸ hnone)
      · exact hclimb.ins_ne_nil hmem hzF hnone
    rw [not_or] at hout
    exact (Net.climb_of_notMem hout.1 hout.2).symm
  · rw [h.fit.sound.wellFormed.size_eq, hp.wellFormed.size_eq, h.ids]

/-- What was on the path is still behind `F`. -/
theorem under (hp : p.Sound) (hv : p.Valid) {s : NodeId} (hF : q.Under F s) :
    ∀ z ∈ path, q.Under z s := by
  obtain ⟨name, f, hclimb, -, -, -⟩ := id h.step
  obtain ⟨a, hapath, ha, haG, -, hpre⟩ := h.edges hp hv
  obtain ⟨rank, hranked⟩ := exists_ranked hp hv
  have hkept : ∀ z ∈ path, z ≠ F → q.graph.predecessors z = p.graph.predecessors z :=
    fun z hz hzF => by
    have hlt := (hclimb.rank_of_mem hranked hz).2
    rw [hpre, if_neg (by rintro rfl; omega), if_neg hzF]
    refine map_renamed_of_notMem fun hmem => ?_
    have := hranked.up G z ((hranked.edge G z).mpr hmem)
    omega
  have hgo : ∀ {x path'}, p.net.Climb (C.fit F) G x path' → q.Under x s →
      (∀ z ∈ path', z ∈ path ∧ (z ≠ x → z ≠ F)) → ∀ z ∈ path', q.Under z s := by
    intro x path' hclimb' hx hsub
    induction hclimb' with
    | last =>
      intro z hz
      obtain rfl := List.mem_singleton.mp hz
      exact hx
    | @step x y _ _ path' houts hins hy _ hrest ih =>
      have hxy := hranked.up x y (houts ▸ List.mem_singleton_self y)
      have hyx : y ≠ x := by rintro rfl; omega
      obtain ⟨hypath, hyF⟩ := hsub y (by simp [hrest.mem_self])
      have hyU : q.Under y s := .filter (h.hasType.mpr (IsFilter.hasType hy))
        ((hkept y hypath (hyF hyx)).trans hins) hx
      intro z hz
      rcases List.mem_cons.mp hz with rfl | hz
      · exact hx
      refine ih hyU (fun z hz => ⟨(hsub z (by simp [hz])).1, fun _ => ?_⟩) z hz
      refine (hsub z (by simp [hz])).2 ?_
      have := (hrest.rank_of_mem hranked hz).1
      rintro rfl
      omega
  exact hgo hclimb hF fun z hz => ⟨hz, fun hne => hne⟩

end MovedAs

namespace Tracks

/-- A filter that was found is moved. -/
theorem transform {m : Match} {region : Region} {input G : NodeId} (h : Tracks n rank p W K)
    (hF : p.HasType F .forEach) (hmatch : Rule.filterAboveForEach.Matches p m)
    (hm : m.get 0 = .ok F) (hfound : Rule.eligibleFilter F p = .ok (some (input, G)) p)
    (ht : Rule.filterAboveForEach.transform m p = .ok region q) :
    ∃ K' path t, K.Le K' ∧ Tracks n rank q W K' ∧ K' F = some t ∧
      MovedAs (crossing n W) p q F G path ∧ p.graph.predecessors F = [input] ∧
      region = .ofList (input :: G :: F ::
        ((p.graph.predecessors G).take 1 ++ p.graph.successors G)) := by
  have hc : Rule.filterAboveForEach.check m p = .ok true p :=
    (Rule.filterAboveForEach_check_eq_ok hm).mpr ⟨_, hfound, rfl⟩
  obtain ⟨-, hcases⟩ := Rule.filterAboveForEach_applies h.fit hmatch
    (.refl h.fit.sound.coherent) hc
  have hfit : q.CanMerge := by
    rcases hcases with ⟨_, _, _, _, _, _, _, _, ht', hfit, -⟩ | ⟨_, _, ht', -⟩
    · obtain ⟨-, rfl⟩ := EStateM.Result.ok.inj (ht.symm.trans ht')
      exact hfit
    · rw [ht] at ht'
      cases ht'
  rcases filterAboveForEach_spec h.fit.sound h.fit.valid hF hm hfound with
    ⟨_, _, path, name, f, f', ht', -, -, hpushes, -, hG, hG', hids, -, haround,
      ⟨r, s, o, hschema, hmemo, hremap, hsame⟩, hregion⟩ | ⟨_, _, ht', -⟩
  swap
  · rw [ht] at ht'
    cases ht'
  obtain ⟨rfl, rfl⟩ := EStateM.Result.ok.inj (ht.symm.trans ht')
  -- the search asked for nothing new
  obtain ⟨y, hy, -⟩ := hpushes.leads.output_of_mem hpushes.leads.mem_self
  obtain ⟨-, K₁, hle₁, h₁, hsettled, hfinds⟩ := h.eligibleFilter hF hy hfound
  have hsteady := h₁.flow.unique h.flow
  rw [hsteady] at h₁ hsettled hfinds
  obtain ⟨path', name', g, hclimb, hG₁, hg⟩ := hfinds.hit G rfl
  obtain ⟨rfl, rfl⟩ := hG.unique hG₁
  -- neither does the request for the schema of the `ForEach`
  obtain ⟨opF, hopF⟩ := Option.isSome_iff_exists.mp (lasting_of_hasType hF (by simp))
  have hforEach : opF.type = .forEach := (hasType_of_lasting hopF).1.unique hF
  have hself : p.Under F F := .self (by rw [hopF]; rfl)
  obtain ⟨hext, ho, K₂, hle₂, h₂, hK₂⟩ := h₁.request hself hschema
  rw [h₁.holds.ask_settled h₁.within hsettled ((h.flow.op F).trans hopF) (by simp [hforEach])] at h₂
  -- what the filter becomes
  obtain ⟨input', i, hinput', hi, hins⟩ := h.exists_input hF
  obtain rfl := List.singleton_inj.mp (hpushes.source.symm.trans hinput')
  obtain ⟨-, hs, -⟩ := h₁.request hi (schema_of_memo hmemo)
  have hmoved : (crossing n W).moved F f = f' := by
    simp only [crossing, hins, hs, ho, Option.map_some, placeAbove_unnamed, hremap]
  have hlast : ∀ z, q.lasting z = p.lasting z := fun z => hpushes.lasting fun z hz => by
    rw [hsame.lasting ((hpushes.other z hz).trans hext.alike.core?.symm), ← h₂.flow.op, h.flow.op]
  have huids : q.uids = p.uids := hsame.uids.trans (h₂.flow.uids.symm.trans h.flow.uids)
  refine ⟨K₂, path', _, hle₁.trans hle₂, ⟨hfit, h.flow.pushes hpushes h.fit.sound h.fit.valid hlast
    huids, h₂.holds, h.within, ?_⟩, hK₂, ⟨hfit, ⟨name, f, hclimb, hG, hg, ?_⟩, hids⟩,
    hpushes.source,
    hregion⟩
  · have hsize : q.size = p.size := by
      unfold Plan.size
      rw [hfit.sound.wellFormed.size_eq, h.fit.sound.wellFormed.size_eq, hids]
    rw [hsize]
    exact h.size
  · rw [hmoved]
    exact hpushes.net_eq haround h.fit.sound h.fit.valid hclimb hG'

end Tracks

end Plan

end Dataflow

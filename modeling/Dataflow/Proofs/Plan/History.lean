import Dataflow.Proofs.Engine.Stages
import Dataflow.Proofs.Graph.Calls
import Dataflow.Proofs.Plan.Rederive

/-!
# Histories of plans

A plan comes to be by edits, in between which schemas are asked for. Each edit that succeeds,
whatever it is applied to, forgets what can depend on it and so keeps derived schemas coherent
(`Change.keeps`); a request, also one that fails or that meets a cycle, derives more schemas and
changes nothing else. So every plan that a history leads to is coherent (`Change.tidy_of_history`),
and once it has no cycle its derived schemas and the answers to requests are those of the recursion
over all inputs.
-/

namespace Dataflow

open Dataflow.Graph Plan

variable {p q : Plan} {id x : NodeId} {n : Nat}

/-- A change of a plan: an edit, or a request for a schema. -/
inductive Change where
  | add (op : Operator)
  | remove (id : NodeId)
  | connect (a b : NodeId)
  | connectAt (a : NodeId) (i : Nat) (b : NodeId) (j : Nat)
  | disconnect (a b : NodeId)
  | insertBetween (a x b : NodeId)
  | bypass (x : NodeId)
  | spliceOut (x : NodeId)
  /-- Gives an operator another name and another operation. -/
  | alter (id : NodeId) (name : Option String) (operation : Operation)
  | request (id : NodeId)

namespace Change

/-- An edit has to succeed. A request may fail; what it derived before stays derived. -/
def run : Change → Edit Unit
  | .add op => discard (insert op)
  | .remove id => discard (Plan.remove id)
  | .connect a b => Plan.connect a b
  | .connectAt a i b j => Plan.connectAt a i b j
  | .disconnect a b => discard (Plan.disconnect a b)
  | .insertBetween a x b => Plan.insertBetween a x b
  | .bypass x => discard (Plan.bypass x)
  | .spliceOut x => Plan.spliceOut x
  | .alter id name operation => update id fun op => { op with name, operation }
  | .request id => fun p => .ok () (Pass.after (schema id) p)

/-- How many keys the change takes. -/
def keys : Change → Nat
  | .add _ => 1
  | _ => 0

end Change

namespace Plan

/-- What every change keeps: the graph is well-formed, so many keys were handed out, and derived
schemas are coherent. -/
structure Tidy (n : Nat) (p : Plan) : Prop where
  wellFormed : p.graph.WellFormed
  keysBelow : p.graph.KeysBelow
  nextKey : p.graph.nextKey.toNat = n
  coherent : p.Coherent

theorem Tidy.alike (h : p.Tidy n) (hq : Alike p q) (hc : q.Coherent) : q.Tidy n :=
  ⟨hq.wellFormed h.wellFormed, hq.keysBelow h.keysBelow, by rw [hq.nextKey, h.nextKey], hc⟩

/-- After an edit that kept the nodes of the graph. -/
theorem Tidy.rewired {g : Graph Operator} {S : NodeId → Prop} (h : p.Tidy n)
    (hg : RewiredAt S p.graph g) (hq : Alike { p with graph := g } q) (hc : q.Coherent) :
    q.Tidy n where
  wellFormed := hq.wellFormed hg.wellFormed
  keysBelow := hq.keysBelow (h.keysBelow.congr hg.same.ids hg.same.nextKey)
  nextKey := (congrArg UInt64.toNat (hq.nextKey.trans hg.same.nextKey)).trans h.nextKey
  coherent := hc

theorem Tidy.add (h : p.Tidy n) (hn : n + 1 < 2 ^ 64) (op : Operator) :
    (p.add op).2.Tidy (n + 1) where
  wellFormed := h.wellFormed.add h.keysBelow
  keysBelow := h.keysBelow.add (by rw [h.nextKey]; exact hn)
  nextKey := by
    change (p.graph.nextKey + 1).toNat = n + 1
    rw [UInt64.toNat_add, h.nextKey]
    exact Nat.mod_eq_of_lt hn
  coherent := h.coherent.add h.wellFormed h.keysBelow op

/-- Only an operator without edges is removed. -/
theorem Tidy.remove {op : Operator} (h : p.Tidy n) (hrun : Plan.remove id p = .ok op q) :
    q.Tidy n := by
  obtain ⟨g, hg, rfl⟩ := onGraph_eq_ok.mp hrun
  have hwf := h.wellFormed.remove (step_eq_ok.mp hg)
  obtain ⟨-, -, hout, rfl⟩ := remove_eq_ok.mp (step_eq_ok.mp hg)
  have hop : ∀ z, operator? { p with graph := p.graph.erased id } z =
      if z = id then none else p.operator? z := fun z => content?_erased p.graph id
  refine ⟨hwf, fun z hz => h.keysBelow z (List.mem_filter.mp hz).1, h.nextKey, ?_⟩
  refine h.coherent.of_frame (q := { p with graph := p.graph.erased id }) h.wellFormed
    (S := (· = id)) (fun x hx y hy => ?_) (fun x hx => ?_)
    fun x hx => ⟨(hop x).trans (if_neg hx), ?_⟩
  · rw [hx, hout] at hy
    simp at hy
  · rw [memoOf, hop, if_pos hx]; rfl
  · refine dataInputs_congr ((predecessors_erased p.graph id).trans (if_neg hx)) ?_
    rw [hop, if_neg hx]

theorem Tidy.connectAt {a b : NodeId} {i j : Nat} {u : Unit} (h : p.Tidy n)
    (hrun : Plan.connectAt a i b j p = .ok u q) : q.Tidy n := by
  have hrun' := hrun
  unfold Plan.connectAt at hrun'
  rw [Pass.bind_of_ok Pass.get_apply] at hrun'
  obtain ⟨_, p', hresult, hrun'⟩ := Pass.bind_eq_ok.mp hrun'
  obtain ⟨hcheck, rfl⟩ := ofResult_eq_ok.mp hresult
  obtain ⟨_, p₁, hgraph, -⟩ := Pass.bind_eq_ok.mp hrun'
  obtain ⟨g, hg, -⟩ := onGraph_eq_ok.mp hgraph
  have hg := perform_eq_ok.mp hg
  obtain ⟨q', hq', halike, hc⟩ := connectAt_spec h.wellFormed h.coherent hcheck hg
  obtain ⟨-, rfl⟩ : () = u ∧ q' = q := by simpa [hq'] using hrun
  exact h.rewired (h.wellFormed.connectAt_rewired hg) halike hc

theorem Tidy.disconnect {a b : NodeId} {slots : Nat × Nat} (h : p.Tidy n)
    (hrun : Plan.disconnect a b p = .ok slots q) : q.Tidy n := by
  have hrun' := hrun
  unfold Plan.disconnect at hrun'
  obtain ⟨⟨i, j⟩, p₁, hgraph, -⟩ := Pass.bind_eq_ok.mp hrun'
  obtain ⟨g, hg, -⟩ := onGraph_eq_ok.mp hgraph
  have hg := step_eq_ok.mp hg
  obtain ⟨q', hq', halike, hc⟩ := disconnect_spec h.wellFormed h.coherent hg
  obtain ⟨-, rfl⟩ : (i, j) = slots ∧ q' = q := by simpa [hq'] using hrun
  exact h.rewired (h.wellFormed.disconnect_rewired hg) halike hc

theorem Tidy.insertBetween {a b : NodeId} {u : Unit} (h : p.Tidy n)
    (hrun : Plan.insertBetween a x b p = .ok u q) : q.Tidy n := by
  unfold Plan.insertBetween at hrun
  obtain ⟨_, p₁, hgraph, hrun⟩ := Pass.bind_eq_ok.mp hrun
  obtain ⟨g, hg, rfl⟩ := onGraph_eq_ok.mp hgraph
  obtain rfl : Plan.invalidate { p with graph := g } x = q := by simpa using hrun
  obtain ⟨hx, hb, hrewired⟩ := h.wellFormed.insertBetween_rewired hg
  refine h.rewired hrewired .invalidate
    (h.coherent.rewired h.wellFormed hrewired.wellFormed hrewired.same.content? fun z hz => ?_)
  refine hrewired.predecessors z ?_
  rintro (rfl | rfl)
  · exact hz (self_mem_descendants hx)
  · exact hz (hrewired.wellFormed.mem_descendants (self_mem_descendants hx) hb)

/-- Outside of what lies behind a node, taking it out of its place changes no inputs. -/
theorem notMem_descendants {z : NodeId} (hwf : p.graph.WellFormed)
    (hx : p.graph.contains x = true) (hz : z ∉ p.graph.descendants x) :
    z ≠ x ∧ z ∉ p.graph.successors x := by
  have hself := self_mem_descendants hx
  exact ⟨fun heq => hz (heq ▸ hself), fun hmem => hz (hwf.mem_descendants hself hmem)⟩

theorem Tidy.spliceOut {u : Unit} (h : p.Tidy n) (hrun : Plan.spliceOut x p = .ok u q) :
    q.Tidy n := by
  have hinv := Alike.invalidate (p := p) (x := x)
  obtain ⟨g, hg, -⟩ := detaching_eq_ok hrun
  obtain ⟨hx, hrewired⟩ := (hinv.wellFormed h.wellFormed).spliceOut_rewired hg
  have hx' : p.graph.contains x = true := by rwa [← hinv.contains]
  obtain ⟨q', hq', halike, hc⟩ := detaching_spec h.wellFormed h.coherent hrewired.wellFormed hx' hg
    (fun z => .inr (hrewired.same.content? z)) fun z hz => by
      obtain ⟨hzx, hzs⟩ := notMem_descendants h.wellFormed hx' hz
      rw [hrewired.predecessors z (by simp [hzx, hinv.successors, hzs]), hinv.predecessors]
  obtain ⟨-, rfl⟩ : () = u ∧ q' = q := by simpa [hq'] using hq'.symm.trans hrun
  exact (h.alike hinv (h.coherent.invalidate h.wellFormed)).rewired hrewired halike hc

theorem Tidy.bypass {op : Operator} (h : p.Tidy n) (hrun : Plan.bypass x p = .ok op q) :
    q.Tidy n := by
  have hinv := Alike.invalidate (p := p) (x := x)
  obtain ⟨g, hg, -⟩ := detaching_eq_ok hrun
  obtain ⟨hx, hwf, hids, hkey, hcontent, hpre⟩ :=
    (hinv.wellFormed h.wellFormed).bypass_rewired hg
  have hx' : p.graph.contains x = true := by rwa [← hinv.contains]
  obtain ⟨q', hq', halike, hc⟩ := detaching_spec h.wellFormed h.coherent hwf hx' hg
    (fun z => by
      by_cases hz : z = x
      · exact .inl ⟨by simp [hcontent, hz], hz⟩
      · exact .inr (by simp [hcontent, hz])) fun z hz => by
      obtain ⟨hzx, hzs⟩ := notMem_descendants h.wellFormed hx' hz
      rw [hpre z hzx (by rwa [hinv.successors]), hinv.predecessors]
  obtain ⟨-, rfl⟩ : op = op ∧ q' = q := by simpa using hq'.symm.trans hrun
  refine ⟨halike.wellFormed hwf, halike.keysBelow fun z hz => ?_, ?_, hc⟩
  · change z ∈ g.ids at hz
    rw [hids] at hz
    change z.val.toNat < g.nextKey.toNat
    rw [hkey]
    exact hinv.keysBelow h.keysBelow z (List.mem_filter.mp hz).1
  · exact (congrArg UInt64.toNat (halike.nextKey.trans (hkey.trans hinv.nextKey))).trans h.nextKey

theorem Tidy.alter {u : Unit} {name : Option String} {operation : Operation} (h : p.Tidy n)
    (hrun : update id (fun op => { op with name, operation }) p = .ok u q) : q.Tidy n := by
  have hid : p.graph.contains id = true := by
    by_contra hc
    have hc : p.contains id = false := (Bool.not_eq_true _).mp hc
    unfold update at hrun
    rw [Pass.bind_of_ok Pass.get_apply] at hrun
    simp [hc, Pass.bind_eq_ok] at hrun
  obtain ⟨q', hq', hwf, hc, hids, hkey, -⟩ := update_spec (fun op => { op with name, operation })
    h.wellFormed h.coherent hid (fun _ => rfl) fun _ => rfl
  obtain ⟨-, rfl⟩ : () = u ∧ q' = q := by simpa [hq'] using hrun
  exact ⟨hwf, h.keysBelow.congr hids hkey, by rw [hkey, h.nextKey], hc⟩

/-- A request keeps what it derived, also if it fails, and changes nothing else. -/
theorem extends_after_schema (hp : p.Coherent) : Extends p (Pass.after (schema id) p) := by
  have hone : ∀ x, Pass.Keeps (Extends p) (deriveOne x) := fun x r hr => by
    unfold Pass.after
    cases hrun : deriveOne x r with
    | ok u t => exact hr.trans (Extends.deriveOne hr.coherent hrun).1
    | error e t => exact (deriveOne_eq_error hrun) ▸ hr
  have hresult : ∀ {β : Type} (r : Result β), Pass.Keeps (Extends p) (ofResult r) := fun r => by
    cases r with
    | ok b => exact .pure
    | error e => exact .throw
  have hschema : Pass.Keeps (Extends p) (schema id) := by
    unfold schema
    refine .bind .get fun r => .bind (hresult _) fun op => ?_
    cases op.memo with
    | some s => exact .pure
    | none =>
      exact .bind (.forM hone _) fun _ => .bind .get fun t => .bind (hresult _) fun _ => .pure
  exact hschema p (.refl hp)

end Plan

namespace Change

/-- Every change that succeeds keeps a plan tidy. -/
theorem keeps {c : Change} {u : Unit} (h : p.Tidy n) (hroom : n + c.keys < 2 ^ 64)
    (hrun : c.run p = .ok u q) : q.Tidy (n + c.keys) := by
  cases c with
  | add op =>
    obtain ⟨id, hadd⟩ := Pass.discard_eq_ok.mp hrun
    obtain rfl : (p.add op).2 = q := (EStateM.Result.ok.inj hadd).2
    exact h.add hroom op
  | remove id =>
    obtain ⟨op, hremove⟩ := Pass.discard_eq_ok.mp hrun
    exact h.remove hremove
  | connect a b => exact h.connectAt (connect_eq_connectAt.symm.trans hrun)
  | connectAt a i b j => exact h.connectAt hrun
  | disconnect a b =>
    obtain ⟨slots, hdisconnect⟩ := Pass.discard_eq_ok.mp hrun
    exact h.disconnect hdisconnect
  | insertBetween a x b => exact h.insertBetween hrun
  | bypass x =>
    obtain ⟨op, hbypass⟩ := Pass.discard_eq_ok.mp hrun
    exact h.bypass hbypass
  | spliceOut x => exact h.spliceOut hrun
  | alter id name operation => exact h.alter hrun
  | request id =>
    obtain rfl : Pass.after (schema id) p = q := (EStateM.Result.ok.inj hrun).2
    have hext : Extends p (Pass.after (schema id) p) := extends_after_schema h.coherent
    exact h.alike hext.alike hext.coherent

/-- How many keys a history takes. -/
def totalKeys (changes : List Change) : Nat := (changes.map keys).sum

/-- A history keeps a plan tidy while there are keys. -/
theorem tidy_of_history {u : Unit} : ∀ {changes : List Change} {p : Plan} {n : Nat}, p.Tidy n →
    n + totalKeys changes < 2 ^ 64 → changes.forM run p = .ok u q →
    q.Tidy (n + totalKeys changes)
  | [], p, n, h, _, hrun => by
    obtain rfl : p = q := by simpa using hrun
    exact h
  | c :: changes, p, n, h, hroom, hrun => by
    have hsum : n + totalKeys (c :: changes) = n + c.keys + totalKeys changes := by
      simp [totalKeys, Nat.add_assoc]
    rw [hsum] at hroom ⊢
    obtain ⟨_, p₁, hc, hrun⟩ := Pass.bind_eq_ok.mp (Pass.forM_cons ▸ hrun)
    exact tidy_of_history (keeps h (Nat.lt_of_le_of_lt (Nat.le_add_right _ _) hroom) hc) hroom hrun

end Change

namespace Plan

theorem Tidy.empty (uids : UidSupply) : Tidy 0 { uids } :=
  ⟨.empty, .empty, rfl, fun id op s hop => by
    have : (Graph.empty : Graph Operator).content? id = none := by
      simp [content?, Graph.empty]
    exact absurd (this.symm.trans hop) (by simp)⟩

/-- What feeds an operator with a derived schema has one, too. -/
theorem Coherent.memoOf_isSome_of_feeds (hp : p.Coherent) (hid : (p.memoOf id).isSome)
    (hx : Feeds p id x) : (p.memoOf x).isSome := by
  induction hx with
  | refl => exact hid
  | step hxy _ ih =>
    obtain ⟨s, hs⟩ := Option.isSome_iff_exists.mp ih
    obtain ⟨op, hop, hmemo⟩ := Option.bind_eq_some_iff.mp hs
    exact (hp _ op s hop hmemo).1 _ hxy

/-- No derived schema is stale: whatever feeds an operator with a derived schema has one, too, and
deriving the schema anew gives the same and takes no identities. Requests end like deriving anew,
and never because the schema of an input is missing. -/
structure Current (p : Plan) : Prop where
  inputs : ∀ id x, (p.memoOf id).isSome → Feeds p id x → (p.memoOf x).isSome
  derived : ∀ id s, p.memoOf id = some s → ∃ q, rederive p.size id p = .ok s q ∧ Agrees p q
  requests : ∀ id, EndsAlike (schema id p) (rederive p.size id p)
  reachesInputs : ∀ id e q x y, schema id p = .error e q → e ≠ .invariant (.underivedSchema x y)

theorem Ready.current (hp : p.Ready) : p.Current where
  inputs _ _ := hp.coherent.memoOf_isSome_of_feeds
  derived id s hs := by
    have h := schema_endsAlike hp id
    rw [schema_of_memo hs] at h
    cases hr : rederive p.size id p with
    | error e q => rw [hr] at h; exact h.elim
    | ok t q =>
      rw [hr] at h
      exact ⟨q, by rw [h.1], h.2⟩
  requests := schema_endsAlike hp
  reachesInputs id e q x y hrun := by
    cases hid : p.graph.contains id with
    | false =>
      rw [schema_of_missing hid] at hrun
      obtain ⟨rfl, -⟩ : Error.graph (.unknownNode id) = e ∧ p = q := by simpa using hrun
      simp
    | true =>
      obtain ⟨-, z, op, -, -, hfails⟩ :=
        schema_eq_error hp.coherent hp.wellFormed hp.acyclic hid hrun
      rcases Operator.deriveSchema_eq_error _ hfails with ⟨n, rfl⟩ | ⟨column, width, rfl⟩ <;> simp

/-- However a plan came to be: while it has no cycle, its derived schemas are current. -/
theorem current_of_history {changes : List Change} {uids : UidSupply} {u : Unit}
    (hrun : changes.forM Change.run { uids } = .ok u p)
    (hkeys : Change.totalKeys changes < 2 ^ 64) (hac : p.graph.Acyclic) : p.Current := by
  have h := Change.tidy_of_history (.empty uids) (by simpa using hkeys) hrun
  exact Ready.current ⟨h.wellFormed, hac, h.coherent⟩

/-- A filter is placed on an edge and a load gets other columns, each after schemas were derived. -/
def changedLoad : List Change :=
  let load (columns : Schema) : Operation := .load { location := "/in", declared := some columns }
  let kept : Operation := .filter (.constant (.boolean true))
  [.add { operation := load [{ name := some "x", type := .int }] }, .add { operation := kept },
    .add { operation := .store "/out" }, .connect ⟨0⟩ ⟨2⟩, .request ⟨2⟩, .insertBetween ⟨0⟩ ⟨1⟩ ⟨2⟩,
    .request ⟨1⟩, .alter ⟨0⟩ (some "A") (load [{ name := some "y", type := .long }]), .request ⟨2⟩]

theorem changedLoad_current : (made (changedLoad.forM Change.run)).Current := by
  obtain ⟨p, hrun⟩ : ∃ p, changedLoad.forM Change.run {} = .ok () p := by decide +kernel
  have hmade : made (changedLoad.forM Change.run) = p := by simp [made, Pass.after, hrun]
  have hwf : (made (changedLoad.forM Change.run)).graph.WellFormed := by decide +kernel
  have hsorted : (made (changedLoad.forM Change.run)).graph.topologicalOrder =
      .ok [⟨0⟩, ⟨1⟩, ⟨2⟩] := by decide +kernel
  have hac := (exists_topologicalOrder_iff hwf).mp ⟨_, hsorted⟩
  exact current_of_history (by rw [hmade]; exact hrun) (by decide) hac

end Plan

end Dataflow

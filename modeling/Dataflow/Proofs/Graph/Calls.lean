import Dataflow.Proofs.Graph.Copy
import Dataflow.Proofs.Graph.Edit

/-!
# Graphs that calls lead to

A graph comes to be by calls of its operations, each with whatever arguments, and some of them fail.
A composed edit that fails part way leaves the graph where it stopped. Every step on the way keeps
the two records of the edges in agreement, so that the graph is well-formed after every call,
however it ended (`wellFormed_of_calls`). Only the count of keys has to last: once it runs over, a
new node may get the key of an old one.
-/

namespace Dataflow.Graph

/-!
## What edits leave alone

Every edit of edges that succeeds, whatever its arguments are, keeps the nodes of a well-formed
graph and leads edges differently only into certain nodes (`RewiredAt`): into the target of an
elementary edit, and into a node and its outputs when that is taken out of its place. What depends
on the inputs of nodes alone survives everywhere else.
-/

section Rewired

variable {α : Type} {g g' g'' : Graph α} {a b x y z id : NodeId} {i j : Nat} {c : α}
  {S T : NodeId → Prop}

/-- The nodes of a well-formed graph are kept, and only the given ones get other inputs. -/
structure RewiredAt (S : NodeId → Prop) (g g' : Graph α) : Prop where
  wellFormed : g'.WellFormed
  same : SameNodes g g'
  predecessors : ∀ z, ¬S z → g'.predecessors z = g.predecessors z

namespace RewiredAt

theorem refl (h : g.WellFormed) : RewiredAt S g g := ⟨h, .refl, fun _ _ => rfl⟩

theorem trans (h : RewiredAt S g g') (h' : RewiredAt S g' g'') : RewiredAt S g g'' :=
  ⟨h'.wellFormed, h.same.trans h'.same, fun z hz =>
    (h'.predecessors z hz).trans (h.predecessors z hz)⟩

theorem mono (h : RewiredAt S g g') (hST : ∀ z, S z → T z) : RewiredAt T g g' :=
  ⟨h.wellFormed, h.same, fun z hz => h.predecessors z fun hS => hz (hST z hS)⟩

end RewiredAt

namespace WellFormed

theorem connectAt_rewired (h : g.WellFormed) (hc : g.connectAt a i b j = .ok g') :
    RewiredAt (· = b) g g' := by
  have hdrawn := drawn_of_connectAt hc
  exact ⟨h.connectAt hc, hdrawn.nodes, fun z hz => by rw [hdrawn.predecessors, if_neg hz]⟩

theorem disconnect_rewired (h : g.WellFormed) (hd : g.disconnect a b = .ok ((i, j), g')) :
    RewiredAt (· = b) g g' := by
  have hcut := h.cut_of_disconnect hd
  exact ⟨h.disconnect hd, hcut.nodes, fun z hz => by rw [hcut.predecessors, if_neg hz]⟩

theorem handOver_rewired {p? : Option NodeId} {u : Unit} : ∀ {outs : List NodeId} {i : Nat}
    {g g' : Graph α}, g.WellFormed → Graph.handOver x p? i outs g = .ok u g' →
    RewiredAt (· ∈ outs) g g'
  | [], i, g, g', h, hrun => by
    obtain rfl : g = g' := by simpa [Graph.handOver] using hrun
    exact .refl h
  | s :: rest, i, g, g', h, hrun => by
    unfold Graph.handOver at hrun
    obtain ⟨⟨i', j⟩, g₁, hd, hrun⟩ := Pass.bind_eq_ok.mp hrun
    have h₁ := h.disconnect_rewired (step_eq_ok.mp hd)
    have hhead : ∀ z, z = s → z ∈ s :: rest := by simp
    have htail : ∀ z, z ∈ rest → z ∈ s :: rest := fun z hz => List.mem_cons_of_mem _ hz
    cases p? with
    | none =>
      exact (h₁.mono hhead).trans ((handOver_rewired h₁.wellFormed hrun).mono htail)
    | some p =>
      obtain ⟨_, g₂, hc, hrun⟩ := Pass.bind_eq_ok.mp hrun
      have h₂ := h₁.wellFormed.connectAt_rewired (perform_eq_ok.mp hc)
      exact ((h₁.trans h₂).mono hhead).trans ((handOver_rewired h₂.wellFormed hrun).mono htail)

/-- Taking a node out of its place changes the inputs of its outputs only, and its own. -/
theorem spliceOut_rewired {u : Unit} (h : g.WellFormed) (hrun : Graph.spliceOut x g = .ok u g') :
    g.contains x = true ∧ RewiredAt (fun z => z = x ∨ z ∈ g.successors x) g g' := by
  unfold Graph.spliceOut at hrun
  rw [Pass.bind_of_ok Pass.get_apply] at hrun
  cases hx : g.contains x with
  | false => simp [hx, Pass.bind_eq_ok] at hrun
  | true =>
    refine ⟨rfl, ?_⟩
    simp only [hx, ↓reduceIte] at hrun
    have hright : ∀ z, z ∈ g.successors x → z = x ∨ z ∈ g.successors x := fun _ => .inr
    match hps : g.predecessors x with
    | [] =>
      rw [hps] at hrun
      exact (h.handOver_rewired hrun).mono hright
    | [p] =>
      rw [hps] at hrun
      obtain ⟨⟨i, j⟩, g₁, hd, hrun⟩ := Pass.bind_eq_ok.mp hrun
      have h₁ := h.disconnect_rewired (step_eq_ok.mp hd)
      exact (h₁.mono fun z hz => .inl hz).trans ((h₁.wellFormed.handOver_rewired hrun).mono hright)
    | _ :: _ :: _ =>
      rw [hps] at hrun
      simp at hrun

/-- Placing a node on an edge changes its own inputs and those of the target of the edge only; the
target is an output of the node afterwards. -/
theorem insertBetween_rewired {u : Unit} (h : g.WellFormed)
    (hrun : Graph.insertBetween a x b g = .ok u g') :
    g'.contains x = true ∧ b ∈ g'.successors x ∧ RewiredAt (fun z => z = x ∨ z = b) g g' := by
  unfold Graph.insertBetween at hrun
  obtain ⟨⟨i, j⟩, g₁, hd, hrun⟩ := Pass.bind_eq_ok.mp hrun
  obtain ⟨_, g₂, hc, hrun⟩ := Pass.bind_eq_ok.mp hrun
  have h₁ := h.disconnect_rewired (step_eq_ok.mp hd)
  have h₂ := h₁.wellFormed.connectAt_rewired (perform_eq_ok.mp hc)
  have h₃ := h₂.wellFormed.connectAt_rewired (perform_eq_ok.mp hrun)
  have hall : RewiredAt (fun z => z = x ∨ z = b) g g' :=
    ((h₁.mono fun z hz => .inr hz).trans (h₂.mono fun z hz => .inl hz)).trans
      (h₃.mono fun z hz => .inr hz)
  have hdrawn := drawn_of_connectAt (perform_eq_ok.mp hrun)
  obtain ⟨⟨hx, -, -, -, hi, -⟩, -⟩ := connectAt_eq_ok.mp (perform_eq_ok.mp hrun)
  refine ⟨hdrawn.nodes.contains.trans hx, ?_, hall⟩
  rw [hdrawn.outs, List.mem_insertIdx hi]
  exact .inl rfl

/-- Removing a node behind taking it out of its place. -/
theorem bypass_rewired (h : g.WellFormed) (hrun : Graph.bypass x g = .ok c g') :
    g.contains x = true ∧ g'.WellFormed ∧ g'.ids = g.ids.filter (· != x) ∧
      g'.nextKey = g.nextKey ∧ (∀ z, g'.content? z = if z = x then none else g.content? z) ∧
      ∀ z, z ≠ x → z ∉ g.successors x → g'.predecessors z = g.predecessors z := by
  unfold Graph.bypass at hrun
  obtain ⟨_, g₁, hs, hrun⟩ := Pass.bind_eq_ok.mp hrun
  obtain ⟨hx, h₁⟩ := h.spliceOut_rewired hs
  have hr := step_eq_ok.mp hrun
  have hg' := h₁.wellFormed.remove hr
  obtain ⟨-, -, -, rfl⟩ := remove_eq_ok.mp hr
  refine ⟨hx, hg', congrArg (List.filter (· != x)) h₁.same.ids, h₁.same.nextKey, fun z => ?_,
    fun z hz hzs => ?_⟩
  · rw [← h₁.same.content? z]
    exact content?_erased g₁ x
  · refine (predecessors_erased g₁ x).trans ?_
    rw [if_neg hz, h₁.predecessors z (by simp [hz, hzs])]

end WellFormed

end Rewired

/-! ## Calls -/

variable {α β : Type} {g g' : Graph α} {n : Nat} {a b : NodeId}

/-- A call of an operation that changes a graph. -/
inductive Call (α : Type) where
  | add (c : α)
  | insert (id : NodeId) (c : α)
  | remove (id : NodeId)
  | connect (a b : NodeId)
  | connectAt (a : NodeId) (i : Nat) (b : NodeId) (j : Nat)
  | disconnect (a b : NodeId)
  | insertBetween (a x b : NodeId)
  | spliceOut (x : NodeId)
  | bypass (x : NodeId)
  /-- Copies what can be reached from a node of any other graph. -/
  | absorb (source : Graph α) (root : NodeId)

namespace Call

/-- The call as a pass, which may fail. -/
def run : Call α → Edit α Unit
  | .add c => discard (step fun g => .ok (g.add c))
  | .insert id c => perform (·.insert id c)
  | .remove id => discard (step (·.remove id))
  | .connect a b => perform (·.connect a b)
  | .connectAt a i b j => perform (·.connectAt a i b j)
  | .disconnect a b => discard (step (·.disconnect a b))
  | .insertBetween a x b => Graph.insertBetween a x b
  | .spliceOut x => Graph.spliceOut x
  | .bypass x => discard (Graph.bypass x)
  | .absorb source root => discard (Graph.absorb source root)

/-- Where the count of keys stands after the call, if it does not run over. -/
def count (g : Graph α) : Call α → Nat
  | .add _ => g.nextKey.toNat + 1
  | .insert id _ =>
    if g.contains id then g.nextKey.toNat else max g.nextKey.toNat (id.val.toNat + 1)
  | .absorb source root => g.nextKey.toNat + (source.descendants root).length
  | _ => g.nextKey.toNat

/-- The graph after some calls, of which each may have failed. -/
def runAll (calls : List (Call α)) (g : Graph α) : Graph α :=
  calls.foldl (fun g c => Pass.after c.run g) g

/-- The count of keys does not run over at any of the calls. -/
def KeysLast : List (Call α) → Graph α → Prop
  | [], _ => True
  | c :: rest, g => c.count g < 2 ^ 64 ∧ KeysLast rest (Pass.after c.run g)

instance decidableKeysLast : ∀ (calls : List (Call α)) (g : Graph α), Decidable (KeysLast calls g)
  | [], _ => inferInstanceAs (Decidable True)
  | c :: rest, g =>
    have := decidableKeysLast rest (Pass.after c.run g)
    inferInstanceAs (Decidable (_ ∧ _))

end Call

/-! ## What every step keeps -/

theorem after_perform {f : Graph α → Except Fault (Graph α)} :
    Pass.after (perform f) g = (f g).toOption.getD g := by
  unfold perform step Pass.after
  cases h : f g <;> simp [h, Except.map, Except.toOption]

/-- A step that is refused leaves the graph alone. -/
theorem eq_of_step_error {f : Graph α → Except Fault (β × Graph α)} {e : Fault}
    (h : step f g = .error e g') : g' = g := by
  unfold step at h
  cases hf : f g <;> simp_all

theorem eq_of_refused {f : Graph α → Except Fault (Graph α)} {e : Fault}
    (h : perform f g = .error e g') : g' = g := eq_of_step_error h

/-- A step either succeeds or leaves the graph alone. -/
theorem keeps_step {I : Graph α → Prop} {f : Graph α → Except Fault (β × Graph α)}
    (hf : ∀ g c g', I g → f g = .ok (c, g') → I g') : Pass.Keeps I (step f) := by
  intro g hg
  unfold Pass.after step
  cases hrun : f g with
  | ok r =>
    obtain ⟨c, g'⟩ := r
    exact hf g c g' hg hrun
  | error e => exact hg

theorem keeps_perform {I : Graph α → Prop} {f : Graph α → Except Fault (Graph α)}
    (hf : ∀ g g', I g → f g = .ok g' → I g') : Pass.Keeps I (perform f) := by
  refine keeps_step fun g c g' hg hrun => ?_
  obtain ⟨t, ht, heq⟩ := Pass.except_map_eq_ok.mp hrun
  obtain ⟨-, rfl⟩ := Prod.mk.inj heq
  exact hf g t hg ht

/-- A property of graphs that outlasts the drawing and cutting of edges. -/
structure Steady (I : Graph α → Prop) : Prop where
  connectAt : ∀ {a b : NodeId} {i j : Graph α → Nat},
    Pass.Keeps I (perform fun g => g.connectAt a (i g) b (j g))
  disconnect : ∀ {a b : NodeId}, Pass.Keeps I (step (·.disconnect a b))

namespace Steady

variable {I : Graph α → Prop} (hI : Steady I)

include hI

theorem insertBetween {x : NodeId} : Pass.Keeps I (Graph.insertBetween a x b) := by
  unfold Graph.insertBetween
  refine .bind hI.disconnect fun slots => ?_
  exact .bind hI.connectAt fun _ => hI.connectAt

/-- The outputs are handed over one by one; each leaves the old node before the new one gets it. -/
theorem handOver {x : NodeId} {p? : Option NodeId} : ∀ (outs : List NodeId) (i : Nat),
    Pass.Keeps I (Graph.handOver x p? i outs) := by
  intro outs
  induction outs with
  | nil =>
    intro i
    exact .pure
  | cons s rest ih =>
    intro i
    unfold Graph.handOver
    refine .bind hI.disconnect fun slots => ?_
    cases p? with
    | none => exact ih (i + 1)
    | some p => exact .bind hI.connectAt fun _ => ih (i + 1)

theorem spliceOut {x : NodeId} : Pass.Keeps I (Graph.spliceOut x) := by
  unfold Graph.spliceOut
  refine .bind .get fun g => ?_
  cases g.contains x with
  | false => exact .throw
  | true =>
    cases g.predecessors x with
    | nil => exact hI.handOver _ _
    | cons p ps =>
      cases ps with
      | nil => exact .bind hI.disconnect fun _ => hI.handOver _ _
      | cons q ps => exact .throw

theorem connectAll {names : Renaming} : ∀ edges : List (NodeId × NodeId),
    Pass.Keeps I (Graph.connectAll names edges) := by
  intro edges
  induction edges with
  | nil => exact .pure
  | cons e rest ih =>
    obtain ⟨a, b⟩ := e
    unfold Graph.connectAll
    cases names[a]? with
    | none => exact ih
    | some a' =>
      cases names[b]? with
      | none => exact ih
      | some b' => exact .bind hI.connectAt fun _ => ih

end Steady

/-- The graph is well-formed, its keys lie below the next one, and so many keys were handed out. -/
structure Kept (n : Nat) (g : Graph α) : Prop where
  wellFormed : g.WellFormed
  keysBelow : g.KeysBelow
  nextKey : g.nextKey.toNat = n

namespace Kept

theorem key_lt {x : NodeId} (h : Kept n g) (hx : g.contains x = true) : x.val.toNat < n :=
  h.nextKey ▸ h.keysBelow x ((h.wellFormed.mem_ids x).mpr hx)

theorem empty : Kept 0 (Graph.empty : Graph α) := ⟨.empty, .empty, rfl⟩

/-- After an edit that only leads edges elsewhere. -/
theorem rewired {S : NodeId → Prop} (h : Kept n g) (hg : RewiredAt S g g') : Kept n g' where
  wellFormed := hg.wellFormed
  keysBelow := h.keysBelow.congr hg.same.ids hg.same.nextKey
  nextKey := (congrArg UInt64.toNat hg.same.nextKey).trans h.nextKey

theorem steady : Steady (Kept (α := α) n) where
  connectAt := keeps_perform fun _ _ hg hrun => hg.rewired (hg.wellFormed.connectAt_rewired hrun)
  disconnect := keeps_step fun _ _ _ hg hrun =>
    hg.rewired (hg.wellFormed.disconnect_rewired hrun)

theorem connectAt {i : Graph α → Nat} {j : Graph α → Nat} :
    Pass.Keeps (Kept n) (Graph.perform fun g => g.connectAt a (i g) b (j g)) := steady.connectAt

theorem disconnect : Pass.Keeps (Kept (α := α) n) (Graph.step (·.disconnect a b)) :=
  steady.disconnect

theorem remove {x : NodeId} : Pass.Keeps (Kept (α := α) n) (Graph.step (·.remove x)) := by
  refine keeps_step fun g c g' hg hrun => ?_
  have hwf := hg.wellFormed.remove hrun
  obtain ⟨-, -, -, rfl⟩ := remove_eq_ok.mp hrun
  exact ⟨hwf, fun id hid => hg.keysBelow id (List.mem_filter.mp hid).1, hg.nextKey⟩

theorem insertBetween {x : NodeId} : Pass.Keeps (Kept (α := α) n) (Graph.insertBetween a x b) :=
  steady.insertBetween

theorem spliceOut {x : NodeId} : Pass.Keeps (Kept (α := α) n) (Graph.spliceOut x) :=
  steady.spliceOut

theorem bypass {x : NodeId} : Pass.Keeps (Kept (α := α) n) (Graph.bypass x) :=
  .bind spliceOut fun _ => remove

/-! ## Handing out keys -/

theorem add (h : Kept n g) (hn : n + 1 < 2 ^ 64) (c : α) : Kept (n + 1) (g.add c).2 := by
  have hroom : g.nextKey.toNat + 1 < 2 ^ 64 := by rw [h.nextKey]; exact hn
  refine ⟨h.wellFormed.add h.keysBelow, h.keysBelow.add hroom, ?_⟩
  rw [nextKey_add, toNat_nextKey_succ hroom, h.nextKey]

/-- A chosen key has to leave room for one above it. -/
theorem insert {id : NodeId} {c : α} (h : Kept n g) (hid : id.val.toNat + 1 < 2 ^ 64)
    (hrun : g.insert id c = .ok g') : Kept (max n (id.val.toNat + 1)) g' := by
  unfold Graph.insert at hrun
  split at hrun
  · simp at hrun
  rename_i hnew
  obtain rfl := Except.ok.inj hrun
  have hsucc : (id.val + 1).toNat = id.val.toNat + 1 := by
    rw [UInt64.toNat_add]
    exact Nat.mod_eq_of_lt hid
  have hmax : (max g.nextKey (id.val + 1)).toNat = max n (id.val.toNat + 1) := by
    rw [← h.nextKey, ← hsucc, Nat.max_def]
    show (if g.nextKey ≤ id.val + 1 then id.val + 1 else g.nextKey).toNat = _
    simp only [UInt64.le_iff_toNat_le]
    split <;> rfl
  refine ⟨(h.wellFormed.place (by simpa using hnew)).nextKey, fun x hx => ?_, hmax⟩
  show x.val.toNat < (max g.nextKey (id.val + 1)).toNat
  rw [hmax]
  rcases List.mem_append.mp hx with hx | hx
  · have := h.keysBelow x hx
    rw [h.nextKey] at this
    omega
  · obtain rfl : x = id := by simpa using hx
    omega

/-- What is left to do when the nodes of the other graph are there: their edges are drawn, and the
copy of the root is looked up. -/
def draw (source : Graph α) (root : NodeId) (names : Renaming) : Edit α NodeId := do
  Graph.connectAll names (source.edgesFrom (source.descendants root))
  match names[root]? with
  | some root' => pure root'
  | none => throw (.unknownNode root)

theorem keeps_draw {I : Graph α → Prop} (hI : Steady I) {source : Graph α} {root : NodeId}
    {names : Renaming} : Pass.Keeps I (draw source root names) := by
  refine .bind (hI.connectAll _) fun _ => ?_
  split
  · exact .pure
  · exact .throw

theorem absorb_eq {source : Graph α} {root : NodeId} (h : source.descendants root ≠ []) :
    Graph.absorb source root g =
      let (names, g') := addEach ({}, g) (source.contents (source.descendants root))
      draw source root names g' := by
  unfold Graph.absorb
  simp only [List.isEmpty_iff, h, if_false]
  rfl

/-- The nodes of the other graph are added first, and then the edges are drawn one by one. That
graph need not be well-formed: an edge that does not fit is refused. -/
theorem absorb {source : Graph α} {root : NodeId} (h : Kept n g)
    (hroom : n + (source.descendants root).length < 2 ^ 64) :
    Kept (n + (source.descendants root).length) (Pass.after (Graph.absorb source root) g) := by
  have hfst : (source.contents (source.descendants root)).map Prod.fst =
      source.descendants root :=
    map_fst_contents fun x hx => contains_of_mem_descendants hx
  have hlen := congrArg List.length hfst
  rw [List.length_map] at hlen
  by_cases hnil : source.descendants root = []
  · -- the root is no node: nothing happens
    unfold Graph.absorb
    rw [hnil]
    exact h
  · obtain ⟨⟨hwf, hkeys, hkey⟩, -⟩ :=
      addEach_spec (hfst ▸ descendants_nodup) h.wellFormed h.keysBelow
      (by rw [hlen, h.nextKey]; exact hroom)
    rw [hlen, h.nextKey] at hkey
    unfold Pass.after
    rw [absorb_eq hnil]
    exact keeps_draw steady _ ⟨hwf, hkeys, hkey⟩

end Kept

/-! ## Calls in turn -/

namespace Call

/-- Every call, however it ends, keeps the graph and moves the count of keys to where it should
be. -/
theorem keeps {c : Call α} (h : Kept n g) (hcount : c.count g < 2 ^ 64) :
    Kept (c.count g) (Pass.after c.run g) := by
  obtain rfl := h.nextKey
  cases c with
  | add c => exact h.add hcount c
  | insert id c =>
    show Kept _ (Pass.after (perform (·.insert id c)) g)
    rw [after_perform]
    cases hid : g.contains id with
    | true =>
      -- a key that is taken is refused
      simpa [Graph.insert, count, hid, Except.toOption] using h
    | false =>
      obtain ⟨g', hrun⟩ : ∃ g', g.insert id c = .ok g' := by simp [Graph.insert, hid]
      simp only [count, hid, Bool.false_eq_true, if_false] at hcount ⊢
      rw [hrun]
      exact h.insert (by omega) hrun
  | remove id => exact Kept.remove.discard g h
  | connect a b => exact Kept.connectAt g h
  | connectAt a i b j => exact Kept.connectAt g h
  | disconnect a b => exact Kept.disconnect.discard g h
  | insertBetween a x b => exact Kept.insertBetween g h
  | spliceOut x => exact Kept.spliceOut g h
  | bypass x => exact Kept.bypass.discard g h
  | absorb source root =>
    show Kept _ (Pass.after (discard (Graph.absorb source root)) g)
    rw [Pass.after_discard]
    exact h.absorb hcount

theorem runAll_keeps : ∀ {calls : List (Call α)} {n : Nat} {g : Graph α}, Kept n g →
    KeysLast calls g → ∃ m, Kept m (runAll calls g) := by
  intro calls
  induction calls with
  | nil =>
    intro n g h _
    exact ⟨n, h⟩
  | cons c rest ih =>
    intro n g h hkeys
    obtain ⟨hcount, hrest⟩ := hkeys
    exact ih (keeps h hcount) hrest

end Call

/-- Whatever was called, and whether or not it succeeded: while the count of keys lasts, every node
is listed once, keys lie below the next one, edges are simple and lead from nodes to nodes, and both
of their records agree. So the check of the edges finds nothing. -/
theorem wellFormed_of_calls {calls : List (Call α)} (hkeys : Call.KeysLast calls Graph.empty)
    (hg : Call.runAll calls Graph.empty = g) :
    g.WellFormed ∧ g.KeysBelow ∧
      (∀ a b, b ∈ g.successors a → g.contains a = true ∧ g.contains b = true) ∧
      (∀ a, a ∉ g.predecessors a) ∧ g.checkConsistency = .ok () := by
  obtain ⟨n, hkept⟩ := Call.runAll_keeps .empty hkeys
  rw [hg] at hkept
  have hwf := hkept.wellFormed
  refine ⟨hwf, hkept.keysBelow, fun a b hb => ?_, fun a ha => ?_, hwf.checkConsistency⟩
  · exact ⟨contains_of_mem_successors hb, hwf.target hb⟩
  · exact hwf.irrefl a ((hwf.edge a a).mpr ha)

/-- A node is to be placed on an edge, of which it is the source itself; the edge is gone when that
is noticed. Then the graph is copied into itself and a node in its middle is taken out. -/
def brokenOffCalls : List (Call String) :=
  let drawn : List (Call String) := [.add "a", .add "b", .connect ⟨0⟩ ⟨1⟩, .connect ⟨0⟩ ⟨1⟩,
    .insert ⟨7⟩ "c", .connectAt ⟨0⟩ 0 ⟨7⟩ 0, .insertBetween ⟨0⟩ ⟨0⟩ ⟨1⟩, .connect ⟨7⟩ ⟨1⟩]
  drawn ++ [.absorb (Call.runAll drawn Graph.empty) ⟨0⟩, .remove ⟨8⟩, .bypass ⟨9⟩,
    .disconnect ⟨1⟩ ⟨0⟩, .spliceOut ⟨9⟩]

theorem brokenOffCalls_wellFormed : Call.KeysLast brokenOffCalls Graph.empty ∧
    (Call.runAll brokenOffCalls Graph.empty).ids = [⟨0⟩, ⟨1⟩, ⟨7⟩, ⟨8⟩, ⟨10⟩] ∧
    (Call.runAll brokenOffCalls Graph.empty).checkConsistency = .ok () := by
  have hkeys : Call.KeysLast brokenOffCalls Graph.empty := by decide +kernel
  refine ⟨hkeys, by decide +kernel, ?_⟩
  obtain ⟨-, -, -, -, hchecked⟩ := wellFormed_of_calls hkeys rfl
  exact hchecked

end Dataflow.Graph

import Dataflow.Proofs.Graph.Calls

/-!
# Calls that fail

The elementary edits look at everything before they change anything, and so does a copy. An edit
that is composed of several may find a step refused when the ones before it are done. Which failing
calls leave the graph as it was can be told from the graph before the call (`Call.unchanged_iff`):
only `insertBetween`, `spliceOut` and `bypass` break off in the middle, and only for the reasons
that `Call.BreaksOff` lists.
-/

namespace Dataflow.Graph

variable {α β : Type} {g g' g₁ : Graph α} {a b p x y z : NodeId} {i j : Nat} {e : Fault}

/-- A call stops in the middle. The edge on which `x` is to be placed is taken away before the new
ones are drawn, which fails if `x` is no node, if it is an end of the edge, or if it is already
connected with one; an edge into its own target is drawn again as the last one before that is
noticed. A node with one input is cut off from it before its outputs are handed over, which fails at
an output that is the input itself or has it for an input. -/
def Call.BreaksOff (g : Graph α) : Call α → Prop
  | .insertBetween a x b => b ∈ g.successors a ∧ (g.contains x = false ∨ x = a ∨
      if x = b then (g.predecessors b).getLast? ≠ some a
      else x ∈ g.successors a ∨ b ∈ g.successors x)
  | .spliceOut x | .bypass x =>
    ∃ p, g.predecessors x = [p] ∧ ∃ s ∈ g.successors x, s = p ∨ s ∈ g.successors p
  | _ => False

/-- A copy is made of another well-formed graph, and there are keys for it. -/
def Call.HasRoom (g : Graph α) : Call α → Prop
  | .absorb source root =>
    source.WellFormed ∧ g.nextKey.toNat + (source.descendants root).length < 2 ^ 64
  | _ => True

/-! ## Refused steps -/

theorem not_mem_of_disconnect (h : g.WellFormed)
    (hd : step (·.disconnect a b) g = .error e g') : b ∉ g.successors a := by
  intro hb
  obtain ⟨i, j, g₁, -, -, hok, -⟩ := h.exists_disconnect hb
  rw [step_eq_ok.mpr hok] at hd
  cases hd

/-- A new edge is refused for one of these reasons. -/
theorem refused_of_connectAt {i j : Graph α → Nat}
    (hc : perform (fun g => g.connectAt a (i g) b (j g)) g = .error e g') :
    g.contains a = true → g.contains b = true → i g ≤ (g.successors a).length →
      j g ≤ (g.predecessors b).length → a = b ∨ b ∈ g.successors a := by
  intro ha hb hi hj
  by_contra hno
  rw [not_or] at hno
  have hok := connectAt_eq_ok.mpr ⟨⟨ha, hb, hno.1, hno.2, hi, hj⟩, rfl⟩
  rw [perform_eq_ok (u := ()).mpr hok] at hc
  cases hc

theorem erase_append_eq_iff {l : List NodeId} (hl : l.Nodup) (ha : a ∈ l) :
    l.erase a ++ [a] = l ↔ l.getLast? = some a := by
  constructor
  · intro heq
    rw [← heq, List.getLast?_append]
    rfl
  · intro hlast
    obtain ⟨front, rfl⟩ := List.getLast?_eq_some_iff.mp hlast
    have hnot : a ∉ front := fun hm => (List.nodup_append.mp hl).2.2 a hm a (by simp) rfl
    rw [List.erase_append_right _ hnot]
    simp

/-! ## Placing a node on an edge -/

/-- Leading an edge into its target again, now as the last one, changes nothing if it was the
last. -/
theorem unchanged_iff_of_last {g₂ : Graph α} (h : g.WellFormed)
    (hd : g.disconnect a b = .ok ((i, j), g₁))
    (hc : g₁.connectAt a i b (g₁.predecessors b).length = .ok g₂) :
    Unchanged g g₂ ↔ (g.predecessors b).getLast? = some a := by
  obtain ⟨hi, hj, -⟩ := disconnect_eq_ok.mp hd
  have hcut := h.cut_of_disconnect hd
  have hdrawn := drawn_of_connectAt hc
  have hpre : g₂.predecessors b = (g.predecessors b).erase a ++ [a] := by
    rw [hdrawn.ins, List.insertIdx_length_self, hcut.ins, eraseIdx_of_idxOf? hj]
  rw [← erase_append_eq_iff (h.ins_nodup b) (mem_of_idxOf? hj), ← hpre]
  constructor
  · intro hun
    exact hun.predecessors b
  · intro heq
    refine ⟨hcut.nodes.trans hdrawn.nodes, fun z => ?_, fun z => ?_⟩
    · rw [hdrawn.successors, hcut.outs, insertIdx_eraseIdx_of_idxOf? hi, hcut.successors]
      by_cases hz : z = a <;> simp [hz]
    · by_cases hz : z = b
      · rw [hz, heq]
      · rw [hdrawn.predecessors, if_neg hz, hcut.predecessors, if_neg hz]

theorem insertBetween_unchanged_iff (h : g.WellFormed)
    (hrun : Graph.insertBetween a x b g = .error e g') :
    Unchanged g g' ↔ ¬(Call.insertBetween a x b).BreaksOff g := by
  unfold Graph.insertBetween at hrun
  rcases Pass.bind_eq_error.mp hrun with hd | ⟨⟨i, j⟩, g₁, hd, hrun⟩
  · -- there is no such edge
    obtain rfl := eq_of_step_error hd
    have hb := not_mem_of_disconnect h hd
    exact iff_of_true .refl fun hoff => hb hoff.1
  have hd := step_eq_ok.mp hd
  have hcut := h.cut_of_disconnect hd
  obtain ⟨hi, hj, -⟩ := disconnect_eq_ok.mp hd
  have hb : b ∈ g.successors a := mem_of_idxOf? hi
  have ha : g₁.contains a = true := hcut.nodes.contains.trans (contains_of_mem_successors hb)
  have hsuc : g₁.successors a = (g.successors a).erase b := by
    rw [hcut.outs, eraseIdx_of_idxOf? hi]
  have hgone : b ∉ g₁.successors a := by
    rw [hsuc]
    exact (h.outs_nodup a).not_mem_erase
  have hslot : i ≤ (g₁.successors a).length := by
    rw [hsuc, List.length_erase_of_mem hb]
    have := lt_of_idxOf? hi
    omega
  rcases Pass.bind_eq_error.mp hrun with hc | ⟨u, g₂, hc, hrun⟩
  · -- the edge is cut, and the node does not take its source for an input
    obtain rfl := eq_of_step_error hc
    refine iff_of_false (fun hun => hgone (hun.successors a ▸ hb)) (not_not_intro ⟨hb, ?_⟩)
    by_contra hno
    rw [not_or, not_or] at hno
    obtain ⟨hx, hxa, hrest⟩ := hno
    have hx : g.contains x = true := by simpa using hx
    have hwhy := refused_of_connectAt hc ha (hcut.nodes.contains.trans hx) hslot (Nat.le_refl _)
    rcases hwhy with rfl | hmem
    · exact hxa rfl
    · rw [hsuc] at hmem
      by_cases hxb : x = b
      · exact (h.outs_nodup a).not_mem_erase (hxb ▸ hmem)
      · rw [if_neg hxb] at hrest
        exact hrest (.inl (List.mem_of_mem_erase hmem))
  · have hc := perform_eq_ok.mp hc
    have hdrawn := drawn_of_connectAt hc
    obtain ⟨⟨-, hx, hax, -⟩, -⟩ := connectAt_eq_ok.mp hc
    have hx' : g.contains x = true := hcut.nodes.contains.symm.trans hx
    rw [eq_of_step_error hrun]
    by_cases hxb : x = b
    · -- only the order of the inputs of `b` can have changed
      subst hxb
      rw [unchanged_iff_of_last h hd hc]
      simp [Call.BreaksOff, hb, hx', hax.symm]
    · have hpre : g₂.predecessors b = (g.predecessors b).erase a := by
        rw [hdrawn.predecessors, if_neg (Ne.symm hxb), hcut.ins, eraseIdx_of_idxOf? hj]
      have hout : g₂.successors x = g.successors x := by
        rw [hdrawn.successors, if_neg hax.symm, hcut.successors, if_neg hax.symm]
      have hsame := hcut.nodes.trans hdrawn.nodes
      refine iff_of_false (fun hun => ?_) (not_not_intro ⟨hb, .inr (.inr ?_)⟩)
      · have hmem := (h.edge a b).mp hb
        rw [← hun.predecessors b, hpre] at hmem
        exact (h.ins_nodup b).not_mem_erase hmem
      · rw [if_neg hxb]
        have hwhy := refused_of_connectAt hrun (hsame.contains.trans hx')
          (hsame.contains.trans (h.target hb)) (Nat.le_refl _) (by
            rw [hpre, List.length_erase_of_mem ((h.edge a b).mp hb)]
            have := lt_of_idxOf? hj
            omega)
        rw [hout] at hwhy
        exact .inr (hwhy.resolve_left hxb)

/-! ## Taking a node out of its place -/

/-- Handing over the outputs of a node leaves its inputs alone. -/
theorem keeps_handOver {p? : Option NodeId} {ins : List NodeId} : ∀ (outs : List NodeId) (i : Nat),
    x ∉ outs → Pass.Keeps (fun g : Graph α => g.WellFormed ∧ g.predecessors x = ins)
      (handOver x p? i outs)
  | [], i, _ => Pass.Keeps.pure
  | s :: rest, i, hx => by
    rw [List.mem_cons, not_or] at hx
    unfold handOver
    refine .bind (keeps_step fun g slots g' hg hrun => ?_) fun slots => ?_
    · have hg' := hg.1.disconnect_rewired hrun
      exact ⟨hg'.wellFormed, (hg'.predecessors x hx.1).trans hg.2⟩
    · cases p? with
      | none => exact keeps_handOver rest (i + 1) hx.2
      | some p =>
        refine .bind (keeps_perform fun g g' hg hrun => ?_) fun _ =>
          keeps_handOver rest (i + 1) hx.2
        have hg' := hg.1.connectAt_rewired hrun
        exact ⟨hg'.wellFormed, (hg'.predecessors x hx.1).trans hg.2⟩

/-- With no input to hand them to, the outputs are only cut off, and that cannot fail. -/
theorem exists_handOver_none : ∀ {outs : List NodeId} {i : Nat} {g : Graph α}, g.WellFormed →
    g.successors x = outs → ∃ g', handOver x none i outs g = .ok () g'
  | [], i, g, _, _ => ⟨g, rfl⟩
  | s :: rest, i, g, h, hout => by
    have hs : s ∈ g.successors x := by simp [hout]
    obtain ⟨k, j, g₁, hk, -, hd, h₁, hcut⟩ := h.exists_disconnect hs
    have hrest : g₁.successors x = rest := by
      rw [hcut.outs, eraseIdx_of_idxOf? hk, hout]
      simp
    obtain ⟨g', hrun⟩ := exists_handOver_none (i := i + 1) h₁ hrest
    refine ⟨g', ?_⟩
    unfold handOver
    rw [Pass.bind_of_ok (step_eq_ok.mpr hd)]
    exact hrun

/-- When all outputs were handed over, none is left. -/
theorem successors_of_handOver {p? : Option NodeId} {u : Unit} (hp : ∀ p ∈ p?, p ≠ x) :
    ∀ {outs : List NodeId} {i : Nat} {g g' : Graph α}, g.WellFormed → g.successors x = outs →
      handOver x p? i outs g = .ok u g' → g'.successors x = []
  | [], i, g, g', _, hout, hrun => by
    obtain rfl : g = g' := by simpa [handOver] using hrun
    exact hout
  | s :: rest, i, g, g', h, hout, hrun => by
    unfold handOver at hrun
    obtain ⟨⟨k, j⟩, g₁, hd, hrun⟩ := Pass.bind_eq_ok.mp hrun
    have hd := step_eq_ok.mp hd
    have h₁ := h.disconnect hd
    have hout₁ : g₁.successors x = rest := by
      rw [(h.cut_of_disconnect hd).outs, eraseIdx_of_idxOf? (disconnect_eq_ok.mp hd).1, hout]
      simp
    cases p? with
    | none => exact successors_of_handOver hp h₁ hout₁ hrun
    | some p =>
      obtain ⟨_, g₂, hc, hrun⟩ := Pass.bind_eq_ok.mp hrun
      have hc := perform_eq_ok.mp hc
      have h₂ := h₁.connectAt hc
      refine successors_of_handOver hp h₂ ?_ hrun
      rw [(drawn_of_connectAt hc).successors, if_neg (hp p rfl).symm]
      exact hout₁

/-- Taking a node out of its place, by its inputs. -/
theorem spliceOut_of_absent (hx : g.contains x = false) :
    spliceOut x g = .error (.unknownNode x) g := by
  unfold spliceOut
  rw [Pass.bind_of_ok Pass.get_apply, if_neg (by simp [hx])]
  rfl

theorem spliceOut_of_none (hx : g.contains x = true) (hpre : g.predecessors x = []) :
    spliceOut x g = handOver x none 0 (g.successors x) g := by
  unfold spliceOut
  rw [Pass.bind_of_ok Pass.get_apply, if_pos hx, hpre]

theorem spliceOut_of_single (hpre : g.predecessors x = [p])
    (hd : g.disconnect p x = .ok ((i, j), g₁)) :
    spliceOut x g = handOver x (some p) i (g.successors x) g₁ := by
  have hp : p ∈ g.predecessors x := by simp [hpre]
  unfold spliceOut
  rw [Pass.bind_of_ok Pass.get_apply, if_pos (contains_of_mem_predecessors hp), hpre]
  exact Pass.bind_of_ok (step_eq_ok (f := (·.disconnect p x)).mpr hd)

theorem spliceOut_of_many {rest : List NodeId} (hpre : g.predecessors x = y :: z :: rest) :
    spliceOut x g = .error (.manyInputs x (y :: z :: rest).length) g := by
  have hy : y ∈ g.predecessors x := by simp [hpre]
  unfold spliceOut
  rw [Pass.bind_of_ok Pass.get_apply, if_pos (contains_of_mem_predecessors hy), hpre]
  rfl

/-- A node with one input is cut off from it first. -/
theorem WellFormed.exists_cut (h : g.WellFormed) (hpre : g.predecessors x = [p]) :
    ∃ i j g₁, g.disconnect p x = .ok ((i, j), g₁) ∧ p ≠ x ∧ RewiredAt (· = x) g g₁ ∧
      g₁.predecessors x = [] ∧ g₁.successors x = g.successors x ∧
      g₁.successors p = (g.successors p).erase x ∧ i < (g.successors p).length := by
  have hx : x ∈ g.successors p := (h.edge p x).mpr (by rw [hpre]; simp)
  have hpx : p ≠ x := h.ne_of_edge hx
  obtain ⟨i, j, g₁, hi, hj, hd, -, hcut⟩ := h.exists_disconnect hx
  refine ⟨i, j, g₁, hd, hpx, h.disconnect_rewired hd, ?_, ?_, ?_, lt_of_idxOf? hi⟩
  · rw [hcut.ins, eraseIdx_of_idxOf? hj, hpre]
    simp
  · rw [hcut.successors, if_neg hpx.symm]
  · rw [hcut.outs, eraseIdx_of_idxOf? hi]

/-- A node that was taken out of its place has no edges left. -/
theorem isolated_of_spliceOut {u : Unit} (h : g.WellFormed) (hrun : spliceOut x g = .ok u g') :
    g'.contains x = true ∧ g'.predecessors x = [] ∧ g'.successors x = [] := by
  obtain ⟨hx, hrewired⟩ := h.spliceOut_rewired hrun
  refine ⟨by rw [hrewired.same.contains]; exact hx, ?_⟩
  have hself : x ∉ g.successors x := h.irrefl x
  match hpre : g.predecessors x with
  | [] =>
    rw [spliceOut_of_none hx hpre] at hrun
    exact ⟨((keeps_handOver _ _ hself).of_ok ⟨h, hpre⟩ hrun).2,
      successors_of_handOver (by simp) h rfl hrun⟩
  | [p] =>
    obtain ⟨i, j, g₁, hd, hpx, h₁, hpre₁, hout₁, -, -⟩ := h.exists_cut hpre
    rw [spliceOut_of_single hpre hd] at hrun
    exact ⟨((keeps_handOver _ _ hself).of_ok ⟨h₁.wellFormed, hpre₁⟩ hrun).2,
      successors_of_handOver (by simpa using hpx) h₁.wellFormed hout₁ hrun⟩
  | _ :: _ :: _ =>
    rw [spliceOut_of_many hpre] at hrun
    cases hrun

theorem spliceOut_unchanged_iff (h : g.WellFormed) (hrun : spliceOut x g = .error e g') :
    Unchanged g g' ↔ ¬(Call.spliceOut x).BreaksOff g := by
  have hself : x ∉ g.successors x := h.irrefl x
  match hpre : g.predecessors x with
  | [] =>
    cases hx : g.contains x with
    | false =>
      rw [spliceOut_of_absent hx] at hrun
      obtain ⟨-, rfl⟩ := EStateM.Result.error.inj hrun
      exact iff_of_true .refl (by simp [Call.BreaksOff, hpre])
    | true =>
      obtain ⟨g₁, hok⟩ := exists_handOver_none (i := 0) h (rfl : g.successors x = _)
      rw [spliceOut_of_none hx hpre, hok] at hrun
      cases hrun
  | [p] =>
    obtain ⟨i, j, g₁, hd, hpx, h₁, hpre₁, hout₁, hcut, hi⟩ := h.exists_cut hpre
    rw [spliceOut_of_single hpre hd] at hrun
    refine iff_of_false (fun hun => ?_) (not_not_intro ?_)
    · -- the node is cut off from its input
      have hins := ((keeps_handOver _ _ hself).of_error ⟨h₁.wellFormed, hpre₁⟩ hrun).2
      rw [hun.predecessors x, hpre] at hins
      cases hins
    · -- if no output stood in the way, all could be handed over
      by_contra hno
      have hfree : ∀ s ∈ g.successors x, s ≠ p ∧ s ∉ g₁.successors p := by
        intro s hs
        rw [hcut]
        refine ⟨fun hsp => hno ⟨p, hpre, s, hs, .inl hsp⟩, fun hmem => ?_⟩
        exact hno ⟨p, hpre, s, hs, .inr (List.mem_of_mem_erase hmem)⟩
      have hcp : g₁.contains p = true := by
        rw [h₁.same.contains]
        exact h.source (show p ∈ g.predecessors x by rw [hpre]; simp)
      have hlen : i ≤ (g₁.successors p).length := by
        have hx : x ∈ g.successors p := (h.edge p x).mpr (by rw [hpre]; simp)
        rw [hcut, List.length_erase_of_mem hx]
        omega
      obtain ⟨g₂, hok, -⟩ := h₁.wellFormed.handOver hpx _ hout₁ hcp hfree hlen
      rw [hok] at hrun
      cases hrun
  | q :: r :: rest =>
    rw [spliceOut_of_many hpre] at hrun
    obtain ⟨-, rfl⟩ := EStateM.Result.error.inj hrun
    exact iff_of_true .refl (by simp [Call.BreaksOff, hpre])

/-- The node can be removed when it was taken out. -/
theorem bypass_unchanged_iff (h : g.WellFormed) (hrun : bypass x g = .error e g') :
    Unchanged g g' ↔ ¬(Call.bypass x).BreaksOff g := by
  unfold bypass at hrun
  rcases Pass.bind_eq_error.mp hrun with hsplice | ⟨u, g₁, hsplice, hremove⟩
  · exact spliceOut_unchanged_iff h hsplice
  · obtain ⟨hx, hpre, hsuc⟩ := isolated_of_spliceOut h hsplice
    obtain ⟨c, hc⟩ := exists_content? hx
    rw [step_eq_ok.mpr (remove_eq_ok.mpr ⟨hc, hpre, hsuc, rfl⟩)] at hremove
    cases hremove

/-! ## Calls -/

/-- Edges that are drawn and cut leave the nodes alone. -/
theorem RewiredAt.steady : Steady (RewiredAt (fun _ => True) g) where
  connectAt := keeps_perform fun _ _ hg hrun =>
    hg.trans ((hg.wellFormed.connectAt_rewired hrun).mono fun _ _ => trivial)
  disconnect := keeps_step fun _ _ _ hg hrun =>
    hg.trans ((hg.wellFormed.disconnect_rewired hrun).mono fun _ _ => trivial)

/-- Nothing is reached from a key without a node. -/
theorem descendants_of_absent {start : NodeId} (h : g.contains start = false) :
    g.descendants start = [] := by
  have hv : g.vertices[start]? = none := by
    rwa [contains_eq, Option.isSome_eq_false_iff, Option.isNone_iff_eq_none] at h
  unfold descendants
  rw [walk_missing hv, walk]
  rfl

/-- A copy fails only where there is nothing to copy. -/
theorem eq_of_absorb_error {source : Graph α} {root : NodeId} (h : g.WellFormed)
    (hk : g.KeysBelow) (hroom : (Call.absorb source root).HasRoom g)
    (hrun : absorb source root g = .error e g') : g' = g := by
  cases hroot : source.contains root with
  | true =>
    obtain ⟨g₁, φ, hok, -⟩ := absorb_spec hroom.1 h hk hroot hroom.2
    rw [hok] at hrun
    cases hrun
  | false =>
    unfold absorb at hrun
    rw [descendants_of_absent hroot] at hrun
    exact (EStateM.Result.error.inj hrun).2.symm

namespace Call

theorem unchanged_iff_of_eq {c : Call α} (heq : g' = g) (hno : ¬c.BreaksOff g) :
    Unchanged g g' ↔ ¬c.BreaksOff g := by
  subst heq
  exact iff_of_true .refl hno

/-- A call that fails leaves the graph as it was, unless it is one that breaks off. -/
theorem unchanged_iff {c : Call α} (h : g.WellFormed) (hk : g.KeysBelow) (hroom : c.HasRoom g)
    (hrun : c.run g = .error e g') : Unchanged g g' ↔ ¬c.BreaksOff g := by
  cases c with
  | insertBetween a x b => exact insertBetween_unchanged_iff h hrun
  | spliceOut x => exact spliceOut_unchanged_iff h hrun
  | bypass x => exact bypass_unchanged_iff h (Pass.discard_eq_error.mp hrun)
  | absorb source root =>
    have hcopy := Pass.discard_eq_error.mp hrun
    exact unchanged_iff_of_eq (eq_of_absorb_error h hk hroom hcopy) not_false
  | add c => exact unchanged_iff_of_eq (eq_of_step_error (Pass.discard_eq_error.mp hrun)) not_false
  | remove id =>
    exact unchanged_iff_of_eq (eq_of_step_error (Pass.discard_eq_error.mp hrun)) not_false
  | disconnect a b =>
    exact unchanged_iff_of_eq (eq_of_step_error (Pass.discard_eq_error.mp hrun)) not_false
  | insert id c => exact unchanged_iff_of_eq (eq_of_refused (f := (·.insert id c)) hrun) not_false
  | connect a b => exact unchanged_iff_of_eq (eq_of_refused (f := (·.connect a b)) hrun) not_false
  | connectAt a i b j =>
    exact unchanged_iff_of_eq (eq_of_refused (f := (·.connectAt a i b j)) hrun) not_false

/-- Whatever a failing call has changed, it has added no node and taken none away. -/
theorem sameNodes_of_error {c : Call α} (h : g.WellFormed) (hk : g.KeysBelow) (hroom : c.HasRoom g)
    (hrun : c.run g = .error e g') : SameNodes g g' := by
  have hstart : RewiredAt (fun _ => True) g g := .refl h
  have hsame : ∀ {g₁ : Graph α}, g₁ = g → SameNodes g g₁ := by
    rintro _ rfl
    exact .refl
  cases c with
  | insertBetween a x b => exact (RewiredAt.steady.insertBetween.of_error hstart hrun).same
  | spliceOut x => exact (RewiredAt.steady.spliceOut.of_error hstart hrun).same
  | bypass x =>
    rcases Pass.bind_eq_error.mp (Pass.discard_eq_error.mp hrun) with hout | ⟨u, g₁, hout, hremove⟩
    · exact (RewiredAt.steady.spliceOut.of_error hstart hout).same
    · obtain rfl := eq_of_step_error hremove
      exact (RewiredAt.steady.spliceOut.of_ok hstart hout).same
  | absorb source root =>
    exact hsame (eq_of_absorb_error h hk hroom (Pass.discard_eq_error.mp hrun))
  | add c => exact hsame (eq_of_step_error (Pass.discard_eq_error.mp hrun))
  | remove id => exact hsame (eq_of_step_error (Pass.discard_eq_error.mp hrun))
  | disconnect a b => exact hsame (eq_of_step_error (Pass.discard_eq_error.mp hrun))
  | insert id c => exact hsame (eq_of_refused (f := (·.insert id c)) hrun)
  | connect a b => exact hsame (eq_of_refused (f := (·.connect a b)) hrun)
  | connectAt a i b j => exact hsame (eq_of_refused (f := (·.connectAt a i b j)) hrun)

end Call

/-- Of a graph that any calls led to: a call that fails leaves all nodes as they were, and it leaves
the edges as they were, too, exactly if it is not one that breaks off. -/
theorem unchanged_iff_of_failed {calls : List (Call α)} {c : Call α}
    (hkeys : Call.KeysLast calls Graph.empty) (hg : Call.runAll calls Graph.empty = g)
    (hroom : c.HasRoom g) (hrun : c.run g = .error e g') :
    SameNodes g g' ∧ (Unchanged g g' ↔ ¬c.BreaksOff g) := by
  obtain ⟨n, hkept⟩ := Call.runAll_keeps .empty hkeys
  rw [hg] at hkept
  have hwf := hkept.wellFormed
  exact ⟨Call.sameNodes_of_error hwf hkept.keysBelow hroom hrun,
    Call.unchanged_iff hwf hkept.keysBelow hroom hrun⟩

/-- An output of `x` is an output of the input of `x`, too. -/
def shortcutCalls : List (Call String) :=
  [.add "p", .add "x", .add "s", .connect ⟨0⟩ ⟨1⟩, .connect ⟨0⟩ ⟨2⟩, .connect ⟨1⟩ ⟨2⟩]

/-- Removing `x` and placing `s` on the edge from `p` to `x` both break off; an edge that is not
there is noticed in time. -/
theorem shortcutCalls_failed :
    let g := Call.runAll shortcutCalls Graph.empty
    (∃ g', (∃ e, (Call.bypass ⟨1⟩).run g = .error e g') ∧ SameNodes g g' ∧ ¬Unchanged g g') ∧
    (∃ g', (∃ e, (Call.insertBetween ⟨0⟩ ⟨2⟩ ⟨1⟩).run g = .error e g') ∧
      SameNodes g g' ∧ ¬Unchanged g g') ∧
    ∃ g', (∃ e, (Call.insertBetween ⟨1⟩ ⟨2⟩ ⟨0⟩).run g = .error e g') ∧ Unchanged g g' := by
  intro g
  have hkeys : Call.KeysLast shortcutCalls Graph.empty := by decide +kernel
  obtain ⟨e₁, h₁⟩ : ∃ e, (Call.bypass ⟨1⟩).run g = .error e _ :=
    Pass.eq_error_after (by decide +kernel)
  obtain ⟨e₂, h₂⟩ : ∃ e, (Call.insertBetween ⟨0⟩ ⟨2⟩ ⟨1⟩).run g = .error e _ :=
    Pass.eq_error_after (by decide +kernel)
  obtain ⟨e₃, h₃⟩ : ∃ e, (Call.insertBetween ⟨1⟩ ⟨2⟩ ⟨0⟩).run g = .error e _ :=
    Pass.eq_error_after (by decide +kernel)
  have hbypass := unchanged_iff_of_failed (c := .bypass ⟨1⟩) hkeys rfl trivial h₁
  have hplaced := unchanged_iff_of_failed (c := .insertBetween ⟨0⟩ ⟨2⟩ ⟨1⟩) hkeys rfl trivial h₂
  have hrefused := unchanged_iff_of_failed (c := .insertBetween ⟨1⟩ ⟨2⟩ ⟨0⟩) hkeys rfl trivial h₃
  refine ⟨⟨_, ⟨e₁, h₁⟩, hbypass.1, fun hun => hbypass.2.mp hun ?_⟩,
    ⟨_, ⟨e₂, h₂⟩, hplaced.1, fun hun => hplaced.2.mp hun ?_⟩,
    _, ⟨e₃, h₃⟩, hrefused.2.mpr fun hoff => ?_⟩
  · exact ⟨⟨0⟩, by decide +kernel, ⟨2⟩, by decide +kernel, .inr (by decide +kernel)⟩
  · exact ⟨by decide +kernel, .inr (.inr (.inl (by decide +kernel)))⟩
  · exact absurd hoff.1 (by decide +kernel)

/-- Not every call that fails leaves the graph as it was. -/
theorem not_unchanged_of_error : ¬∀ (calls : List (Call String)) (c : Call String) (e : Fault)
    (g' : Graph String), Call.KeysLast calls Graph.empty →
      c.run (Call.runAll calls Graph.empty) = .error e g' →
      Unchanged (Call.runAll calls Graph.empty) g' := by
  intro hall
  obtain ⟨e, hrun⟩ : ∃ e, (Call.spliceOut ⟨1⟩).run (Call.runAll shortcutCalls Graph.empty) =
      .error e _ := Pass.eq_error_after (by decide +kernel)
  have hout := (hall shortcutCalls _ e _ (by decide +kernel) hrun).successors ⟨0⟩
  exact absurd hout (by decide +kernel)

end Dataflow.Graph

import Dataflow.Operator.Basic
import Dataflow.Proofs.Graph.Calls

/-!
# Which operators lead to which

An edge into a load says that it reads what a store writes, so only stores lead to loads and stores
lead to nothing else. Loads may wait for any number of stores; of the others most take a single
input. Edges are drawn that way when two operators are connected. An edit that draws edges itself
keeps to it as long as the edges are ones that could have been drawn by connecting.
-/

namespace Dataflow.Graph

variable {g g' : Graph Operator} {a b x y : NodeId} {n i j : Nat}

/-- The type of the operator with a key. -/
def typeAt (g : Graph Operator) (id : NodeId) : Option OperatorType :=
  (g.content? id).map Operator.type

/-- An edge may lead from `a` to `b`: only stores lead to loads, and only to loads. -/
def MayFeed (g : Graph Operator) (a b : NodeId) : Prop :=
  ∀ s ∈ g.typeAt a, ∀ t ∈ g.typeAt b, (s = .store ↔ t = .load)

/-- There is room for one more input: loads may wait for any number of stores, and most other
operators take a single input. -/
def TakesInput (g : Graph Operator) (b : NodeId) : Prop :=
  ∀ t ∈ g.typeAt b, t = .load ∨ t.allowsMultipleInputs = true ∨ g.predecessors b = []

/-- If the node has a single input, that may feed each of its outputs. -/
def Passable (g : Graph Operator) (x : NodeId) : Prop :=
  (g.predecessors x).length = 1 → ∀ y ∈ g.predecessors x, ∀ s ∈ g.successors x, g.MayFeed y s

/-- A load or a store can only be taken out of its place if its single input may feed its
outputs. -/
def MayLeave (g : Graph Operator) (x : NodeId) : Prop :=
  (∀ t ∈ g.typeAt x, t = .load ∨ t = .store) → g.Passable x

instance : Decidable (g.MayFeed a b) :=
  inferInstanceAs (Decidable (∀ s ∈ g.typeAt a, ∀ t ∈ g.typeAt b, (s = .store ↔ t = .load)))

instance : Decidable (g.TakesInput b) :=
  inferInstanceAs (Decidable (∀ t ∈ g.typeAt b,
    t = .load ∨ t.allowsMultipleInputs = true ∨ g.predecessors b = []))

instance : Decidable (g.Passable x) :=
  inferInstanceAs (Decidable ((g.predecessors x).length = 1 →
    ∀ y ∈ g.predecessors x, ∀ s ∈ g.successors x, g.MayFeed y s))

instance : Decidable (g.MayLeave x) :=
  inferInstanceAs (Decidable ((∀ t ∈ g.typeAt x, t = .load ∨ t = .store) → g.Passable x))

/-- Edges lead only where they may, and operators have only as many inputs as they take. -/
structure Typed (g : Graph Operator) : Prop where
  edges : ∀ a b, b ∈ g.successors a → g.MayFeed a b
  inputs : ∀ b, ∀ t ∈ g.typeAt b, t ≠ .load → t.allowsMultipleInputs = false →
    (g.predecessors b).length ≤ 1

theorem SameNodes.typeAt (h : SameNodes g g') : g'.typeAt x = g.typeAt x := by
  rw [Graph.typeAt, h.content?, Graph.typeAt]

theorem SameNodes.mayFeed (h : SameNodes g g') : g'.MayFeed a b ↔ g.MayFeed a b := by
  unfold MayFeed
  rw [h.typeAt, h.typeAt]

theorem TakesInput.congr (h : g.TakesInput b) (hsame : SameNodes g g')
    (hnil : g.predecessors b = [] → g'.predecessors b = []) : g'.TakesInput b := fun t ht => by
  rcases h t (hsame.typeAt ▸ ht) with hl | hm | hn
  · exact .inl hl
  · exact .inr (.inl hm)
  · exact .inr (.inr (hnil hn))

namespace Typed

theorem empty : Typed (Graph.empty : Graph Operator) :=
  ⟨fun a b hb => by simp [successors, Graph.empty] at hb,
    fun b t _ _ _ => by simp [predecessors, Graph.empty]⟩

/-- With fewer nodes and edges. -/
theorem mono (h : g.Typed) (htype : ∀ z t, t ∈ g'.typeAt z → t ∈ g.typeAt z)
    (hout : ∀ a b, b ∈ g'.successors a → b ∈ g.successors a)
    (hin : ∀ b, (g'.predecessors b).length ≤ (g.predecessors b).length) : g'.Typed where
  edges a b hb s hs t ht := h.edges a b (hout a b hb) s (htype a s hs) t (htype b t ht)
  inputs b t ht hl hm := Nat.le_trans (hin b) (h.inputs b t (htype b t ht) hl hm)

theorem remove {id : NodeId} {op : Operator} (h : g.Typed) (hr : g.remove id = .ok (op, g')) :
    g'.Typed := by
  obtain ⟨-, -, -, rfl⟩ := remove_eq_ok.mp hr
  refine h.mono (fun z t ht => ?_) (fun a b hb => ?_) fun b => ?_
  · change t ∈ (content? (g.erased id) z).map Operator.type at ht
    rw [content?_erased] at ht
    split at ht
    · simp at ht
    · exact ht
  · change b ∈ successors (g.erased id) a at hb
    rw [successors_erased] at hb
    split at hb
    · simp at hb
    · exact hb
  · change (predecessors (g.erased id) b).length ≤ _
    rw [predecessors_erased]
    split <;> simp

/-- A new node has no edges. -/
theorem add {op : Operator} (h : g.Typed) (hwf : g.WellFormed) (hkeys : g.KeysBelow) :
    (g.add op).2.Typed := by
  have hnew := fresh_of_keysBelow hwf hkeys
  have htype : ∀ z, z ≠ ⟨g.nextKey⟩ → (g.add op).2.typeAt z = g.typeAt z := fun z hz => by
    rw [typeAt, content?_add, if_neg hz, typeAt]
  refine ⟨fun a b hb => ?_, fun b t ht hl hm => ?_⟩
  · rw [successors_add] at hb
    have ha : a ≠ ⟨g.nextKey⟩ := fun heq => by simp [heq ▸ contains_of_mem_successors hb] at hnew
    have hb' : b ≠ ⟨g.nextKey⟩ := fun heq => by simp [heq ▸ hwf.target hb] at hnew
    unfold MayFeed
    rw [htype a ha, htype b hb']
    exact h.edges a b hb
  · rw [predecessors_add]
    by_cases hb : b = ⟨g.nextKey⟩
    · subst hb
      simp [predecessors_of_not_contains hnew]
    · exact h.inputs b t (htype b hb ▸ ht) hl hm

/-- With other contents of the same types. -/
theorem update {id : NodeId} {f : Operator → Operator} (h : g.Typed)
    (hf : ∀ op, g.content? id = some op → (f op).type = op.type) : (g.update id f).Typed := by
  have htype : ∀ z, (g.update id f).typeAt z = g.typeAt z := fun z => by
    rw [typeAt, typeAt, content?_update]
    split
    · next hz =>
      cases hop : g.content? z with
      | none => rfl
      | some op => simp [hf op (hz ▸ hop)]
    · rfl
  refine h.mono (fun z t ht => htype z ▸ ht) (fun a b hb => ?_) fun b => ?_
  · rwa [successors_update] at hb
  · rw [predecessors_update]

/-- Without an edge there is room at its target. -/
theorem disconnect (h : g.Typed) (hwf : g.WellFormed)
    (hd : g.disconnect a b = .ok ((i, j), g')) : g'.Typed ∧ g'.TakesInput b := by
  have hcut := hwf.cut_of_disconnect hd
  have hsame := hcut.nodes
  obtain ⟨-, hj, -⟩ := disconnect_eq_ok.mp hd
  have hj' : j < (g.predecessors b).length := lt_of_idxOf? hj
  refine ⟨h.mono (fun z t ht => hsame.typeAt ▸ ht) (fun x y hy => ?_) fun y => ?_, fun t ht => ?_⟩
  · rw [hcut.successors] at hy
    split at hy
    · next hx => exact hx ▸ List.mem_of_mem_eraseIdx hy
    · exact hy
  · rw [hcut.predecessors]
    split
    · next hy => exact hy ▸ List.length_eraseIdx_le _ _
    · exact le_rfl
  · by_cases hl : t = .load
    · exact .inl hl
    · cases hm : t.allowsMultipleInputs with
      | true => exact .inr (.inl rfl)
      | false =>
        have := h.inputs b t (hsame.typeAt ▸ ht) hl hm
        rw [hcut.ins, ← List.length_eq_zero_iff, List.length_eraseIdx_of_lt hj']
        exact .inr (.inr (by omega))

/-- With one more edge that may be drawn. -/
theorem connectAt (h : g.Typed) (hfeed : g.MayFeed a b) (hroom : g.TakesInput b)
    (hc : g.connectAt a i b j = .ok g') : g'.Typed := by
  have hdrawn := drawn_of_connectAt hc
  have hsame := hdrawn.nodes
  obtain ⟨⟨-, -, -, -, hi, hj⟩, -⟩ := connectAt_eq_ok.mp hc
  refine ⟨fun x y hy => hsame.mayFeed.mpr ?_, fun y t ht hl hm => ?_⟩
  · rw [hdrawn.successors] at hy
    split at hy
    · next hx =>
      subst hx
      rcases (List.mem_insertIdx hi).mp hy with rfl | hy
      · exact hfeed
      · exact h.edges x y hy
    · exact h.edges x y hy
  · rw [hsame.typeAt] at ht
    rw [hdrawn.predecessors]
    split
    · next hy =>
      subst hy
      rcases hroom t ht with hl' | hm' | hnil
      · exact absurd hl' hl
      · simp [hm] at hm'
      · rw [List.length_insertIdx_of_le_length hj, hnil]
        simp
    · exact h.inputs y t ht hl hm

/-- Each output leaves the old node before the new one gets it. -/
theorem handOver {p? : Option NodeId} : ∀ (outs : List NodeId) {i : Nat} {g : Graph Operator},
    g.Typed → g.WellFormed → (∀ y ∈ p?, ∀ s ∈ outs, g.MayFeed y s) →
    (Pass.after (Graph.handOver x p? i outs) g).Typed
  | [], _, _, h, _, _ => h
  | s :: rest, i, g, h, hwf, hfeed => by
    unfold Graph.handOver
    rw [Pass.after_bind]
    cases hd : step (·.disconnect x s) g with
    | error e g₁ => exact eq_of_step_error hd ▸ h
    | ok slots g₁ =>
      obtain ⟨i', j⟩ := slots
      have hd := step_eq_ok.mp hd
      obtain ⟨h₁, hroom⟩ := h.disconnect hwf hd
      have hrewired := hwf.disconnect_rewired hd
      cases p? with
      | none => exact handOver rest h₁ hrewired.wellFormed (by simp)
      | some y =>
        dsimp only
        rw [Pass.after_bind]
        have hfeed₁ : ∀ z ∈ s :: rest, g₁.MayFeed y z := fun z hz =>
          hrewired.same.mayFeed.mpr (hfeed y rfl z hz)
        cases hc : perform (·.connectAt y i s j) g₁ with
        | error e g₂ => exact eq_of_step_error hc ▸ h₁
        | ok u g₂ =>
          have hc := perform_eq_ok.mp hc
          have hrewired₂ := hrewired.wellFormed.connectAt_rewired hc
          refine handOver rest (h₁.connectAt (hfeed₁ s (by simp)) hroom hc)
            hrewired₂.wellFormed fun y' hy' z hz => ?_
          obtain rfl : y = y' := by simpa using hy'
          exact hrewired₂.same.mayFeed.mpr (hfeed₁ z (by simp [hz]))

/-- The input of a node that is taken out must be one that could feed its outputs. -/
theorem spliceOut (h : g.Typed) (hwf : g.WellFormed) (hpass : g.Passable x) :
    (Pass.after (Graph.spliceOut x) g).Typed := by
  unfold Graph.spliceOut
  rw [Pass.after_bind]
  simp only [Pass.get_apply]
  cases hx : g.contains x with
  | false => exact h
  | true =>
    simp only [if_true]
    match hps : g.predecessors x with
    | [] => exact handOver _ h hwf (by simp)
    | [y] =>
      dsimp only
      rw [Pass.after_bind]
      cases hd : step (·.disconnect y x) g with
      | error e g₁ => exact eq_of_step_error hd ▸ h
      | ok slots g₁ =>
        obtain ⟨i, j⟩ := slots
        have hd := step_eq_ok.mp hd
        have hrewired := hwf.disconnect_rewired hd
        refine handOver _ (h.disconnect hwf hd).1 hrewired.wellFormed fun y' hy' s hs => ?_
        obtain rfl : y = y' := by simpa using hy'
        exact hrewired.same.mayFeed.mpr (hpass (by simp [hps]) y (by simp [hps]) s hs)
    | _ :: _ :: _ => exact h

theorem bypass (h : g.Typed) (hwf : g.WellFormed) (hpass : g.Passable x) :
    (Pass.after (Graph.bypass x) g).Typed := by
  have hspliced := h.spliceOut hwf hpass
  unfold Graph.bypass
  rw [Pass.after_bind]
  cases hs : Graph.spliceOut x g with
  | error e g₁ => simpa [Pass.after, hs] using hspliced
  | ok u g₁ =>
    have h₁ : g₁.Typed := by simpa [Pass.after, hs] using hspliced
    cases hr : step (·.remove x) g₁ with
    | error e g₂ =>
      simp only [Pass.after, hr]
      exact eq_of_step_error hr ▸ h₁
    | ok op g₂ =>
      simp only [Pass.after, hr]
      exact h₁.remove (step_eq_ok.mp hr)

/-- A node that is placed on an edge must be one that its source could feed and that could feed its
target. -/
theorem insertBetween (h : g.Typed) (hwf : g.WellFormed)
    (hfits : b ∈ g.successors a → g.MayFeed a x ∧ g.MayFeed x b ∧ g.TakesInput x) :
    (Pass.after (Graph.insertBetween a x b) g).Typed := by
  unfold Graph.insertBetween
  rw [Pass.after_bind]
  cases hd : step (·.disconnect a b) g with
  | error e g₁ => exact eq_of_step_error hd ▸ h
  | ok slots g₁ =>
    obtain ⟨i, j⟩ := slots
    have hd := step_eq_ok.mp hd
    obtain ⟨hax, hxb, hroom⟩ := hfits (mem_of_idxOf? (disconnect_eq_ok.mp hd).1)
    obtain ⟨h₁, hroomb⟩ := h.disconnect hwf hd
    have hrewired := hwf.disconnect_rewired hd
    dsimp only
    rw [Pass.after_bind]
    cases hc : perform (fun g => g.connectAt a i x (g.predecessors x).length) g₁ with
    | error e g₂ => exact eq_of_step_error hc ▸ h₁
    | ok u g₂ =>
      have hc := perform_eq_ok.mp hc
      have hrewired₂ := hrewired.wellFormed.connectAt_rewired hc
      have hsame := hrewired.same.trans hrewired₂.same
      have hroomx : g₁.TakesInput x := by
        refine hroom.congr hrewired.same fun hnil => ?_
        rw [(hwf.cut_of_disconnect hd).predecessors]
        split
        · next hxb => rw [← hxb, hnil, List.eraseIdx_nil]
        · exact hnil
      have h₂ := h₁.connectAt (hrewired.same.mayFeed.mpr hax) hroomx hc
      cases hc' : perform (fun g => g.connectAt x (g.successors x).length b j) g₂ with
      | error e g₃ =>
        simp only [Pass.after, hc']
        exact eq_of_step_error hc' ▸ h₂
      | ok u g₃ =>
        simp only [Pass.after, hc']
        have hc' := perform_eq_ok.mp hc'
        obtain ⟨⟨-, -, hne, -⟩, -⟩ := connectAt_eq_ok.mp hc'
        refine h₂.connectAt (hsame.mayFeed.mpr hxb) ?_ hc'
        refine hroomb.congr hrewired₂.same fun hnil => ?_
        rw [hrewired₂.predecessors b hne.symm, hnil]

end Typed

/-- What is neither a load nor a store can be taken out of its place. -/
theorem Typed.passable (h : g.Typed) (hwf : g.WellFormed) (hleave : g.MayLeave x) :
    g.Passable x := by
  by_cases hends : ∀ t ∈ g.typeAt x, t = .load ∨ t = .store
  · exact hleave hends
  push Not at hends
  obtain ⟨t, ht, hload, hstore⟩ := hends
  intro _ y hy s hs a ha b hb
  have hin := h.edges y x ((hwf.edge y x).mpr hy) a ha t ht
  have hout := h.edges x s hs t ht b hb
  exact iff_of_false (mt hin.mp hload) (mt hout.mpr hstore)

end Dataflow.Graph

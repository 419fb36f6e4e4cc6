import Dataflow.Engine.Eval
import Dataflow.Proofs.Formula.Unfolding

/-!
# Splitting and joining conjunctions

`subformula`, `conjunction` and `splitConjunction` make formulas of copies. Each of them succeeds on
valid formulas and gives valid ones; `IsConjunction` says that one formula is the conjunction of two
others, as far as anything is computed bottom up from its terms. The value, the number of terms and
the columns of a conjunction follow from that.
-/

namespace Dataflow.Formula

open Dataflow.Graph

variable {β : Type} {f a b c : Formula} {x y id root : NodeId} {t : Term}

theorem filter_eq_singleton {l : List NodeId} {p : NodeId → Bool} (hl : l.Nodup) (hx : x ∈ l)
    (hp : ∀ y ∈ l, p y = true ↔ y = x) : l.filter p = [x] := by
  refine List.perm_singleton.mp ?_
  refine (List.perm_ext_iff_of_nodup (hl.filter p) (by simp)).mpr fun y => ?_
  rw [List.mem_filter, List.mem_singleton]
  exact ⟨fun ⟨hy, h⟩ => (hp y hy).mp h, fun h => h ▸ ⟨hx, (hp x hx).mpr rfl⟩⟩

/-- A node whose operands lead nowhere else has no user among the nodes below it. -/
theorem not_mem_successors_of_mem_descendants (hac : f.graph.Acyclic)
    (hx : x ∈ f.graph.descendants root) : root ∉ f.graph.successors x := by
  obtain ⟨rank, hrank⟩ := hac
  have hle : ∀ y ∈ f.graph.descendants root, rank root ≤ rank y :=
    descendants_subset (Nat.le_refl _) fun y hy z hz =>
      Nat.le_trans hy (Nat.le_of_lt (hrank y z hz))
  intro hmem
  exact absurd (hrank x root hmem) (Nat.not_lt.mpr (hle x hx))

theorem mem_columns {input i : Nat} (h : f.Sound) :
    (input, i) ∈ f.columns ↔ ∃ id name, f.graph.content? id = some (.column input i name) := by
  simp only [columns, List.mem_filterMap, Prod.exists, h.wellFormed.mem_toList_iff]
  constructor
  · rintro ⟨id, t, ht, hcol⟩
    cases t <;> simp [columnOf?] at hcol
    obtain ⟨rfl, rfl⟩ := hcol
    exact ⟨id, _, ht⟩
  · rintro ⟨id, name, ht⟩
    exact ⟨id, _, ht, rfl⟩

theorem Sound.length_lt (h : f.Sound) : f.graph.ids.length < 2 ^ 64 :=
  Nat.lt_of_le_of_lt (length_ids_le h.wellFormed h.keysBelow) f.graph.nextKey.toNat_lt

/-! ## Parts -/

/-- One formula is the part of another one below a node. -/
structure IsPart (part f : Formula) (id : NodeId) : Prop where
  sound : part.Sound
  valid : part.Valid
  columns : ∀ p ∈ part.columns, p ∈ f.columns
  compute : ∃ root, part.root = .ok root ∧ ∀ (β : Type) (node : Term → List β → β) miss,
    part.compute (fun _ => node) miss root = f.compute (fun _ => node) miss id

/-- The part below a node is copied as a walk from there comes along. -/
theorem subformula_copied (id : NodeId) (h : f.Sound) (hv : f.Valid)
    (hid : f.graph.contains id = true) : ∃ part φ, f.subformula id = .ok part ∧
      Copied f.graph empty part.graph (f.graph.descendants id) φ ∧ part.graph.Acyclic ∧
      part.root = .ok (φ id) := by
  obtain ⟨g', φ, hrun, hc⟩ := absorb_spec h.wellFormed .empty .empty hid (by
    have := h.wellFormed.length_descendants_le id
    have := h.length_lt
    change 0 + _ < _
    omega)
  have hself := self_mem_descendants hid
  have hids : g'.ids = (f.graph.descendants id).map φ := hc.ids
  refine ⟨⟨g'⟩, φ, ?_, hc, hc.acyclic .empty
    (fun x hx y hy => h.wellFormed.mem_descendants hx hy) hv.acyclic .empty, ?_⟩
  · unfold subformula copyReachable
    rw [hrun]
    rfl
  · refine root_eq_ok.mpr (filter_eq_singleton hc.wellFormed.ids_nodup ?_ fun y hy => ?_)
    · rw [hids]; exact List.mem_map_of_mem hself
    · change y ∈ g'.ids at hy
      rw [hids] at hy
      obtain ⟨x, hx, rfl⟩ := List.mem_map.mp hy
      rw [List.isEmpty_iff]
      constructor
      · intro hempty
        by_contra hne
        obtain ⟨z, hz, hxz⟩ := exists_mem_descendants hx fun e => hne (e ▸ rfl)
        have := (hc.mem_predecessors hx).mpr ⟨z, hz, rfl, hxz⟩
        rw [hempty] at this
        simp at this
      · intro heq
        obtain rfl := hc.inj hx hself heq
        refine List.eq_nil_iff_forall_not_mem.mpr fun a ha => ?_
        obtain ⟨z, hz, -, hxz⟩ := (hc.mem_predecessors hx).mp ha
        exact not_mem_successors_of_mem_descendants hv.acyclic hz hxz

theorem subformula_spec (id : NodeId) (h : f.Sound) (hv : f.Valid)
    (hid : f.graph.contains id = true) :
    ∃ part, f.subformula id = .ok part ∧ IsPart part f id := by
  obtain ⟨part, φ, hrun, hc, hac, hroot⟩ := subformula_copied id h hv hid
  have hids : part.graph.ids = (f.graph.descendants id).map φ := hc.ids
  have hcontent : ∀ y t, part.graph.content? y = some t → ∃ x ∈ f.graph.descendants id, φ x = y ∧
      f.graph.content? x = some t := fun y t ht => by
    have hy := (hc.wellFormed.mem_ids y).mpr (contains_of_content? ht)
    rw [hids] at hy
    obtain ⟨x, hx, rfl⟩ := List.mem_map.mp hy
    exact ⟨x, hx, rfl, by rw [← hc.content? x hx, ht]⟩
  have hsound : part.Sound := ⟨hc.wellFormed, hc.keysBelow⟩
  refine ⟨part, hrun, hsound, ⟨⟨_, hroot⟩, hac, fun y t ht => ?_⟩, ?_, _,
    hroot, fun β node miss => compute_renamed h hv.acyclic hc.wellFormed hac
      hc.content? hc.successors (self_mem_descendants hid)⟩
  · obtain ⟨x, hx, rfl, hxt⟩ := hcontent y t ht
    rw [hc.successors x hx, List.length_map]
    exact hv.arity x t hxt
  · rintro ⟨input, i⟩ hp
    obtain ⟨y, name, hy⟩ := (mem_columns hsound).mp hp
    obtain ⟨x, -, -, hxt⟩ := hcontent y _ hy
    exact (mem_columns h).mpr ⟨x, name, hxt⟩

/-! ## Conjunctions -/

/-- A formula is the conjunction of two others. -/
structure IsConjunction (c a b : Formula) : Prop where
  compute : ∃ root rootA rootB, c.root = .ok root ∧ a.root = .ok rootA ∧ b.root = .ok rootB ∧
    ∀ (β : Type) (node : Term → List β → β) miss,
      c.compute (fun _ => node) miss root = node (.binary .and)
        [a.compute (fun _ => node) miss rootA, b.compute (fun _ => node) miss rootB]

theorem isConjunction_iff : f.isConjunction = true ↔
    ∃ root, f.root = .ok root ∧ f.graph.content? root = some (.binary .and) := by
  unfold isConjunction rootTerm
  cases hr : f.root with
  | error e => simp [bind, Except.bind]
  | ok root =>
    simp only [bind, Except.bind, Except.ok.injEq, exists_eq_left']
    cases hc : f.graph.content? root with
    | none => simp [content, hc, orError]
    | some t => cases t <;> simp [content, hc, orError]; rename_i op; cases op <;> simp

theorem splitConjunction_spec (h : f.Sound) (hv : f.Valid) (hand : f.isConjunction = true) :
    ∃ l r, f.splitConjunction = .ok (some (l, r)) ∧ (l.Sound ∧ l.Valid) ∧ (r.Sound ∧ r.Valid) ∧
      (∀ p ∈ l.columns, p ∈ f.columns) ∧ (∀ p ∈ r.columns, p ∈ f.columns) ∧
      IsConjunction f l r := by
  obtain ⟨root, hroot, hcontent⟩ := isConjunction_iff.mp hand
  obtain ⟨x, y, hxy⟩ : ∃ x y, f.graph.successors root = [x, y] :=
    List.length_eq_two.mp (hv.arity root _ hcontent)
  obtain ⟨l, hl, hlpart⟩ := subformula_spec x h hv (h.wellFormed.target (a := root)
    (by simp [hxy]))
  obtain ⟨r, hr, hrpart⟩ := subformula_spec y h hv (h.wellFormed.target (a := root)
    (by simp [hxy]))
  obtain ⟨rootL, hrootL, hcomputeL⟩ := hlpart.compute
  obtain ⟨rootR, hrootR, hcomputeR⟩ := hrpart.compute
  refine ⟨l, r, ?_, ⟨hlpart.sound, hlpart.valid⟩, ⟨hrpart.sound, hrpart.valid⟩, hlpart.columns,
    hrpart.columns, ⟨root, rootL, rootR, hroot, hrootL, hrootR, fun β node miss => ?_⟩⟩
  · unfold splitConjunction
    simp only [hroot, content, hcontent, orError, hxy, hl, hr, bind, Except.bind, pure,
      Except.pure]
  · rw [compute_eq h.wellFormed hv.acyclic hcontent, hxy, hcomputeL, hcomputeR]
    rfl

/-! ## Joining -/

/-- A conjunction without operands. -/
def bare : Graph Term := (Graph.empty.add (.binary .and)).2

theorem bare_wellFormed : bare.WellFormed := WellFormed.empty.add .empty

theorem contains_bare : bare.contains ⟨0⟩ = true :=
  (bare_wellFormed.mem_ids _).mp (by simp [bare, Graph.empty])

theorem successors_bare : bare.successors x = [] := successors_add

theorem predecessors_bare : bare.predecessors x = [] := predecessors_add

/-- Copies of two formulas beside a conjunction without operands. The left one was made first. -/
structure Beside (a b : Formula) (rootA rootB : NodeId) (g₂ g₃ : Graph Term)
    (φ ψ : NodeId → NodeId) : Prop where
  left : Copied a.graph bare g₂ (a.graph.descendants rootA) φ
  right : Copied b.graph g₂ g₃ (b.graph.descendants rootB) ψ

namespace Beside

variable {rootA rootB : NodeId} {g₂ g₃ : Graph Term} {φ ψ : NodeId → NodeId}
  (h : Beside a b rootA rootB g₂ g₃ φ ψ)

include h

theorem contains_zero₂ : g₂.contains ⟨0⟩ = true :=
  (h.left.contains_iff bare_wellFormed).mpr (.inl contains_bare)

theorem contains_zero : g₃.contains ⟨0⟩ = true :=
  (h.right.contains_iff h.left.wellFormed).mpr (.inl h.contains_zero₂)

theorem contains_left₂ (hx : x ∈ a.graph.descendants rootA) : g₂.contains (φ x) = true :=
  (h.left.contains_iff bare_wellFormed).mpr (.inr ⟨x, hx, rfl⟩)

theorem contains_left (hx : x ∈ a.graph.descendants rootA) : g₃.contains (φ x) = true :=
  (h.right.contains_iff h.left.wellFormed).mpr (.inl (h.contains_left₂ hx))

theorem contains_right (hx : x ∈ b.graph.descendants rootB) : g₃.contains (ψ x) = true :=
  (h.right.contains_iff h.left.wellFormed).mpr (.inr ⟨x, hx, rfl⟩)

theorem left_ne (hx : x ∈ a.graph.descendants rootA) : φ x ≠ ⟨0⟩ := by
  intro heq
  have hnew := h.left.not_contains bare_wellFormed hx
  rw [heq, contains_bare] at hnew
  cases hnew

theorem right_ne (hx : x ∈ b.graph.descendants rootB) : ψ x ≠ ⟨0⟩ := by
  intro heq
  have hnew := h.right.not_contains h.left.wellFormed hx
  rw [heq, h.contains_zero₂] at hnew
  cases hnew

theorem left_ne_right (hx : x ∈ a.graph.descendants rootA) (hy : y ∈ b.graph.descendants rootB) :
    φ x ≠ ψ y := by
  intro heq
  have hnew := h.right.not_contains h.left.wellFormed hy
  rw [← heq, h.contains_left₂ hx] at hnew
  cases hnew

theorem successors_zero : g₃.successors ⟨0⟩ = [] := by
  rw [h.right.old_successors _ h.contains_zero₂, h.left.old_successors _ contains_bare,
    successors_bare]

theorem predecessors_zero : g₃.predecessors ⟨0⟩ = [] := by
  rw [h.right.old_predecessors _ h.contains_zero₂, h.left.old_predecessors _ contains_bare,
    predecessors_bare]

theorem acyclic (ha : a.Sound) (hva : a.Valid) (hb : b.Sound) (hvb : b.Valid) : g₃.Acyclic := by
  have hbare : bare.Acyclic := ⟨fun _ => 0, fun x y hy => by simp [successors_bare] at hy⟩
  have hleft := h.left.acyclic bare_wellFormed
    (fun x hx y hy => ha.wellFormed.mem_descendants hx hy) hva.acyclic hbare
  exact h.right.acyclic h.left.wellFormed
    (fun x hx y hy => hb.wellFormed.mem_descendants hx hy) hvb.acyclic hleft

end Beside

/-- The graph in which two copies hang below a new conjunction. -/
theorem conjoin_spec {rootA rootB : NodeId} (ha : a.Sound) (hb : b.Sound)
    (hrootA : a.root = .ok rootA) (hrootB : b.root = .ok rootB)
    (hroom : 1 + (a.graph.descendants rootA).length + (b.graph.descendants rootB).length
      < 2 ^ 64) :
    ∃ g₂ g₃ g₅ φ ψ, conjoin a rootA b rootB {} = .ok () g₅ ∧
      Beside a b rootA rootB g₂ g₃ φ ψ ∧ g₅.WellFormed ∧ SameNodes g₃ g₅ ∧
      (∀ z, g₅.successors z = if z = ⟨0⟩ then [φ rootA, ψ rootB] else g₃.successors z) ∧
      ∀ z, g₅.predecessors z =
        g₃.predecessors z ++ if z = φ rootA ∨ z = ψ rootB then [⟨0⟩] else [] := by
  have hcontainsA := Valid.contains_root hrootA ha
  have hcontainsB := Valid.contains_root hrootB hb
  have hselfA := self_mem_descendants hcontainsA
  have hselfB := self_mem_descendants hcontainsB
  have hkeys : bare.KeysBelow := KeysBelow.empty.add (by decide)
  have hroomA : bare.nextKey.toNat + (a.graph.descendants rootA).length < 2 ^ 64 := by
    change 1 + _ < _
    omega
  obtain ⟨g₂, φ, hrun₂, hcA⟩ := absorb_spec ha.wellFormed bare_wellFormed hkeys hcontainsA hroomA
  obtain ⟨g₃, ψ, hrun₃, hcB⟩ := absorb_spec hb.wellFormed hcA.wellFormed hcA.keysBelow hcontainsB
    (by rw [hcA.nextKey]; exact hroom)
  have h : Beside a b rootA rootB g₂ g₃ φ ψ := ⟨hcA, hcB⟩
  have hne : ψ rootB ≠ φ rootA := (h.left_ne_right hselfA hselfB).symm
  -- the left operand is connected first
  obtain ⟨g₄, hrun₄, h₄, hsame₄, hsuc₄, hpre₄⟩ := connect_spec hcB.wellFormed h.contains_zero
    (h.contains_left hselfA) (h.left_ne hselfA).symm (by simp [h.successors_zero])
  rw [h.successors_zero, List.nil_append] at hsuc₄
  obtain ⟨g₅, hrun₅, h₅, hsame₅, hsuc₅, hpre₅⟩ := connect_spec h₄
    (hsame₄.contains.trans h.contains_zero) (hsame₄.contains.trans (h.contains_right hselfB))
    (h.right_ne hselfB).symm (by simp [hsuc₄, hne])
  refine ⟨g₂, g₃, g₅, φ, ψ, ?_, h, h₅, hsame₄.trans hsame₅, fun z => ?_, fun z => ?_⟩
  · have hadd : step (fun g => .ok (g.add (Term.binary .and))) ({} : Graph Term) =
        .ok (⟨0⟩ : NodeId) bare := rfl
    unfold conjoin
    rw [Pass.bind_of_ok hadd, Pass.bind_of_ok hrun₂, Pass.bind_of_ok hrun₃,
      Pass.bind_of_ok (perform_eq_ok (u := ()).mpr hrun₄)]
    exact perform_eq_ok.mpr hrun₅
  · rw [hsuc₅, hsuc₄, hsuc₄, if_pos rfl]
    by_cases hz : z = ⟨0⟩ <;> simp [hz]
  · rw [hpre₅, hpre₄, hpre₄, if_neg hne]
    by_cases hzφ : z = φ rootA
    · rw [hzφ, if_neg hne.symm, if_pos rfl, if_pos (.inl rfl)]
    · by_cases hzψ : z = ψ rootB <;> simp [hzφ, hzψ]

/-- A conjunction made of copies of two formulas, which have the new keys `φ` and `ψ`. -/
structure Conjoined (c a b : Formula) (rootA rootB : NodeId) (φ ψ : NodeId → NodeId) : Prop where
  sound : c.Sound
  acyclic : c.graph.Acyclic
  ids : c.graph.ids = ⟨0⟩ :: ((a.graph.descendants rootA).map φ ++
    (b.graph.descendants rootB).map ψ)
  content? : c.graph.content? ⟨0⟩ = some (.binary .and)
  operands : c.graph.successors ⟨0⟩ = [φ rootA, ψ rootB]
  users : c.graph.predecessors ⟨0⟩ = []
  left_content? : ∀ x ∈ a.graph.descendants rootA, c.graph.content? (φ x) = a.graph.content? x
  left_successors : ∀ x ∈ a.graph.descendants rootA,
    c.graph.successors (φ x) = (a.graph.successors x).map φ
  left_predecessors : ∀ x ∈ a.graph.descendants rootA, c.graph.predecessors (φ x) =
    ((a.graph.descendants rootA).filter fun z => x ∈ a.graph.successors z).map φ ++
      if x = rootA then [⟨0⟩] else []
  right_content? : ∀ x ∈ b.graph.descendants rootB, c.graph.content? (ψ x) = b.graph.content? x
  right_successors : ∀ x ∈ b.graph.descendants rootB,
    c.graph.successors (ψ x) = (b.graph.successors x).map ψ
  right_predecessors : ∀ x ∈ b.graph.descendants rootB, c.graph.predecessors (ψ x) =
    ((b.graph.descendants rootB).filter fun z => x ∈ b.graph.successors z).map ψ ++
      if x = rootB then [⟨0⟩] else []

theorem exists_conjoined {rootA rootB : NodeId} (ha : a.Sound) (hva : a.Valid) (hb : b.Sound)
    (hvb : b.Valid) (hrootA : a.root = .ok rootA) (hrootB : b.root = .ok rootB)
    (hroom : 1 + (a.graph.descendants rootA).length + (b.graph.descendants rootB).length
      < 2 ^ 64) :
    ∃ c φ ψ, a.conjunction b = .ok c ∧ Conjoined c a b rootA rootB φ ψ := by
  obtain ⟨g₂, g₃, g₅, φ, ψ, hrun, h, h₅, hsame, hsuc, hpre⟩ :=
    conjoin_spec ha hb hrootA hrootB hroom
  have hselfA := self_mem_descendants (Valid.contains_root hrootA ha)
  have hselfB := self_mem_descendants (Valid.contains_root hrootB hb)
  have hzero : ¬((⟨0⟩ : NodeId) = φ rootA ∨ (⟨0⟩ : NodeId) = ψ rootB) :=
    not_or.mpr ⟨(h.left_ne hselfA).symm, (h.right_ne hselfB).symm⟩
  have hac : g₅.Acyclic := by
    obtain ⟨rank, hrank⟩ := h.acyclic ha hva hb hvb
    refine ⟨fun y => if y = ⟨0⟩ then 0 else rank y + 1, fun x y hy => ?_⟩
    -- nothing uses the conjunction
    have hy₀ : y ≠ ⟨0⟩ := by
      rintro rfl
      rw [h₅.edge, hpre, h.predecessors_zero, if_neg hzero] at hy
      cases hy
    rw [hsuc] at hy
    by_cases hx : x = ⟨0⟩
    · simp [hx, hy₀]
    · rw [if_neg hx] at hy
      have := hrank x y hy
      simp [hx, hy₀]
      omega
  -- the roots of the copies are the operands, and nothing else is
  have hφroot : ∀ x ∈ a.graph.descendants rootA, (φ x = φ rootA ∨ φ x = ψ rootB) ↔ x = rootA := by
    refine fun x hx => ⟨fun heq => ?_, fun heq => .inl (heq ▸ rfl)⟩
    exact h.left.inj hx hselfA (heq.resolve_right (h.left_ne_right hx hselfB))
  have hψroot : ∀ x ∈ b.graph.descendants rootB, (ψ x = φ rootA ∨ ψ x = ψ rootB) ↔ x = rootB := by
    refine fun x hx => ⟨fun heq => ?_, fun heq => .inr (heq ▸ rfl)⟩
    exact h.right.inj hx hselfB (heq.resolve_left (h.left_ne_right hselfA hx).symm)
  refine ⟨⟨g₅⟩, φ, ψ, ?_, ⟨h₅, h.right.keysBelow.congr hsame.ids hsame.nextKey⟩, hac, ?_, ?_, ?_,
    ?_, fun x hx => ?_, fun x hx => ?_, fun x hx => ?_, fun x hx => ?_, fun x hx => ?_,
    fun x hx => ?_⟩
  · unfold conjunction
    simp only [hrootA, hrootB, hrun, bind, Except.bind, pure, Except.pure]
  · rw [hsame.ids, h.right.ids, h.left.ids]
    simp [bare, Graph.empty]
  · rw [hsame.content?, h.right.old_content? _ h.contains_zero₂,
      h.left.old_content? _ contains_bare]
    exact content?_add
  · rw [hsuc, if_pos rfl]
  · rw [hpre, h.predecessors_zero, if_neg hzero]
    rfl
  · rw [hsame.content?, h.right.old_content? _ (h.contains_left₂ hx), h.left.content? x hx]
  · rw [hsuc, if_neg (h.left_ne hx), h.right.old_successors _ (h.contains_left₂ hx),
      h.left.successors x hx]
  · rw [hpre, h.right.old_predecessors _ (h.contains_left₂ hx), h.left.predecessors x hx,
      if_congr (hφroot x hx) rfl rfl]
  · rw [hsame.content?, h.right.content? x hx]
  · rw [hsuc, if_neg (h.right_ne hx), h.right.successors x hx]
  · rw [hpre, h.right.predecessors x hx, if_congr (hψroot x hx) rfl rfl]

namespace Conjoined

variable {rootA rootB : NodeId} {φ ψ : NodeId → NodeId} (h : Conjoined c a b rootA rootB φ ψ)

include h

/-- What stands for nothing else is the conjunction itself. -/
theorem mem_cases (hy : y ∈ c.graph.ids) : y = ⟨0⟩ ∨
    (∃ x ∈ a.graph.descendants rootA, φ x = y) ∨ ∃ x ∈ b.graph.descendants rootB, ψ x = y := by
  rwa [h.ids, List.mem_cons, List.mem_append, List.mem_map, List.mem_map] at hy

theorem content_cases (ht : c.graph.content? y = some t) : (y = ⟨0⟩ ∧ t = .binary .and) ∨
    (∃ x ∈ a.graph.descendants rootA, φ x = y ∧ a.graph.content? x = some t) ∨
      ∃ x ∈ b.graph.descendants rootB, ψ x = y ∧ b.graph.content? x = some t := by
  have hy := (h.sound.wellFormed.mem_ids y).mpr (contains_of_content? ht)
  rcases h.mem_cases hy with rfl | ⟨x, hx, rfl⟩ | ⟨x, hx, rfl⟩
  · exact .inl ⟨rfl, by simpa [h.content?] using ht.symm⟩
  · exact .inr (.inl ⟨x, hx, rfl, by rw [← h.left_content? x hx, ht]⟩)
  · exact .inr (.inr ⟨x, hx, rfl, by rw [← h.right_content? x hx, ht]⟩)

/-- Different nodes have different copies. -/
theorem inj : (∀ x ∈ a.graph.descendants rootA, ∀ y ∈ a.graph.descendants rootA,
      φ x = φ y → x = y) ∧
    ∀ x ∈ b.graph.descendants rootB, ∀ y ∈ b.graph.descendants rootB, ψ x = ψ y → x = y := by
  have hn := h.sound.wellFormed.ids_nodup
  rw [h.ids, List.nodup_cons, List.nodup_append] at hn
  exact ⟨fun x hx y hy => List.inj_on_of_nodup_map hn.2.1 hx hy,
    fun x hx y hy => List.inj_on_of_nodup_map hn.2.2.1 hx hy⟩

/-- Everything but the conjunction is an operand of something. -/
theorem root_eq : c.root = .ok ⟨0⟩ := by
  have hwf := h.sound.wellFormed
  refine root_eq_ok.mpr (filter_eq_singleton hwf.ids_nodup (by simp [h.ids]) fun y hy => ?_)
  rw [List.isEmpty_iff]
  constructor
  · intro hempty
    by_contra hne
    have hnone : ∀ z, y ∉ c.graph.successors z := fun z hz => by
      have := (hwf.edge z y).mp hz
      simp [hempty] at this
    rcases h.mem_cases hy with rfl | ⟨x, hx, rfl⟩ | ⟨x, hx, rfl⟩
    · exact hne rfl
    · by_cases hxr : x = rootA
      · exact hnone ⟨0⟩ (by simp [h.operands, hxr])
      · obtain ⟨z, hz, hxz⟩ := exists_mem_descendants hx hxr
        exact hnone (φ z) (by rw [h.left_successors z hz]; exact List.mem_map_of_mem hxz)
    · by_cases hxr : x = rootB
      · exact hnone ⟨0⟩ (by simp [h.operands, hxr])
      · obtain ⟨z, hz, hxz⟩ := exists_mem_descendants hx hxr
        exact hnone (ψ z) (by rw [h.right_successors z hz]; exact List.mem_map_of_mem hxz)
  · rintro rfl
    exact h.users

theorem arity (hva : a.Valid) (hvb : b.Valid) (ht : c.graph.content? y = some t) :
    (c.graph.successors y).length = t.arity := by
  rcases h.content_cases ht with ⟨rfl, rfl⟩ | ⟨x, hx, rfl, hxt⟩ | ⟨x, hx, rfl, hxt⟩
  · rw [h.operands]
    rfl
  · rw [h.left_successors x hx, List.length_map]
    exact hva.arity x t hxt
  · rw [h.right_successors x hx, List.length_map]
    exact hvb.arity x t hxt

theorem columns (ha : a.Sound) (hb : b.Sound) :
    ∀ p ∈ c.columns, p ∈ a.columns ∨ p ∈ b.columns := by
  rintro ⟨input, i⟩ hp
  obtain ⟨y, name, hy⟩ := (mem_columns h.sound).mp hp
  rcases h.content_cases hy with ⟨-, heq⟩ | ⟨x, -, -, hxt⟩ | ⟨x, -, -, hxt⟩
  · exact absurd heq (by simp)
  · exact .inl ((mem_columns ha).mpr ⟨x, name, hxt⟩)
  · exact .inr ((mem_columns hb).mpr ⟨x, name, hxt⟩)

end Conjoined

theorem conjunction_spec {rootA rootB : NodeId} (ha : a.Sound) (hva : a.Valid) (hb : b.Sound)
    (hvb : b.Valid) (hrootA : a.root = .ok rootA) (hrootB : b.root = .ok rootB)
    (hroom : 1 + (a.graph.descendants rootA).length + (b.graph.descendants rootB).length
      < 2 ^ 64) :
    ∃ c, a.conjunction b = .ok c ∧ c.Sound ∧ c.Valid ∧
      (∀ p ∈ c.columns, p ∈ a.columns ∨ p ∈ b.columns) ∧ IsConjunction c a b := by
  obtain ⟨c, φ, ψ, hrun, h⟩ := exists_conjoined ha hva hb hvb hrootA hrootB hroom
  have hcA := Valid.contains_root hrootA ha
  have hcB := Valid.contains_root hrootB hb
  have hroot := h.root_eq
  have hwf := h.sound.wellFormed
  refine ⟨c, hrun, h.sound, ⟨⟨_, hroot⟩, h.acyclic, fun y t => h.arity hva hvb⟩, h.columns ha hb,
    ⟨⟨0⟩, rootA, rootB, hroot, hrootA, hrootB, fun β node miss => ?_⟩⟩
  rw [compute_eq hwf h.acyclic h.content?, h.operands, List.map_cons, List.map_cons, List.map_nil,
    compute_renamed ha hva.acyclic hwf h.acyclic h.left_content? h.left_successors
      (self_mem_descendants hcA),
    compute_renamed hb hvb.acyclic hwf h.acyclic h.right_content? h.right_successors
      (self_mem_descendants hcB)]

/-- There are keys for the nodes of the conjunction of two formulas. -/
def Conjoinable (a b : Formula) : Prop :=
  ∀ rootA rootB, a.root = .ok rootA → b.root = .ok rootB →
    1 + (a.graph.descendants rootA).length + (b.graph.descendants rootB).length < 2 ^ 64

/-- The number of all nodes bounds the number of those that are copied. -/
theorem conjoinable_of_length (ha : a.Sound) (hb : b.Sound)
    (hroom : 1 + a.graph.ids.length + b.graph.ids.length < 2 ^ 64) : Conjoinable a b := by
  intro rootA rootB _ _
  have := ha.wellFormed.length_descendants_le rootA
  have := hb.wellFormed.length_descendants_le rootB
  omega

theorem Conjoinable.conjunction (h : Conjoinable a b) (ha : a.Sound) (hva : a.Valid)
    (hb : b.Sound) (hvb : b.Valid) : ∃ c, a.conjunction b = .ok c ∧ c.Sound ∧ c.Valid ∧
      (∀ p ∈ c.columns, p ∈ a.columns ∨ p ∈ b.columns) ∧ IsConjunction c a b := by
  obtain ⟨rootA, hrootA⟩ := hva.rooted
  obtain ⟨rootB, hrootB⟩ := hvb.rooted
  exact conjunction_spec ha hva hb hvb hrootA hrootB (h rootA rootB hrootA hrootB)

end Dataflow.Formula

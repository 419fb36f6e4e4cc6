import Dataflow.Proofs.Graph.Copy
import Dataflow.Proofs.Graph.Isomorphism
import Dataflow.Proofs.Graph.Reach

/-!
# Clones of graphs

A clone has the nodes of its original under fresh keys. `ExactCopy` says that nothing else differs:
contents, the order in which the nodes were added and both edge lists of every node are the same.
Drawing the edges node by node puts the outputs in order, but the inputs come in the order in which
their sources were added; therefore they are written down once more in the end (`copyInputs`).

What only looks at the edges goes the same way on a copy: the topological order is that of the
original under the new keys (`ExactCopy.topologicalOrder_eq`).
-/

namespace Dataflow.Graph

variable {α : Type} {g copy : Graph α} {names : Renaming} {φ : NodeId → NodeId}
  {x y id : NodeId} {c : α}

/-- `φ` renames the nodes of a graph to those of another; all else, and the order in which the nodes
were added, is the same. -/
structure ExactCopy (g copy : Graph α) (φ : NodeId → NodeId) : Prop extends
    Isomorphism Eq g copy φ where
  ids : copy.ids = g.ids.map φ

namespace ExactCopy

variable (hc : ExactCopy g copy φ)

include hc

theorem content?_eq (hx : g.contains x = true) : copy.content? (φ x) = g.content? x := by
  obtain ⟨c, hcx⟩ := exists_content? hx
  obtain ⟨d, hd, rfl⟩ := hc.content x c hcx
  rw [hcx, hd]

/-- A node is among others if and only if its new key is among theirs. -/
theorem mem_map_iff {l : List NodeId} (hx : g.contains x = true)
    (hl : ∀ y ∈ l, g.contains y = true) : φ x ∈ l.map φ ↔ x ∈ l := by
  refine ⟨fun h => ?_, List.mem_map_of_mem⟩
  obtain ⟨y, hy, heq⟩ := List.mem_map.mp h
  exact hc.inj (hl y hy) hx heq ▸ hy

theorem nodup_map {l : List NodeId} (hl : ∀ y ∈ l, g.contains y = true) (hn : l.Nodup) :
    (l.map φ).Nodup :=
  List.Nodup.map_on (fun x hx y hy heq => hc.inj (hl x hx) (hl y hy) heq) hn

/-- What holds of every new key and of every key without a node holds of all keys. -/
theorem forall_keys {P : NodeId → Prop} (hnew : ∀ x, g.contains x = true → P (φ x))
    (hother : ∀ y, copy.contains y = false → P y) (y : NodeId) : P y := by
  cases hy : copy.contains y with
  | false => exact hother y hy
  | true =>
    obtain ⟨x, hx, rfl⟩ := hc.exists_of_contains hy
    exact hnew x hx

theorem wellFormed (hg : g.WellFormed) : copy.WellFormed := by
  have hout : ∀ {x}, ∀ y ∈ g.successors x, g.contains y = true := fun _ hy => hg.target hy
  have hin : ∀ {x}, ∀ y ∈ g.predecessors x, g.contains y = true := fun _ hy => hg.source hy
  refine ⟨?_, fun y => ?_, fun a => ?_, fun b => ?_, fun a b => ?_, fun a => ?_⟩
  · rw [hc.ids]
    exact hc.nodup_map (fun x hx => hg.contains_of_mem hx) hg.ids_nodup
  · rw [hc.ids, List.mem_map]
    constructor
    · rintro ⟨x, hx, rfl⟩
      exact hc.contains (hg.contains_of_mem hx)
    · intro hy
      obtain ⟨x, hx, rfl⟩ := hc.exists_of_contains hy
      exact ⟨x, (hg.mem_ids x).mpr hx, rfl⟩
  · refine hc.forall_keys (P := fun a => (copy.successors a).Nodup) (fun x hx => ?_)
      (fun y hy => ?_) a
    · rw [hc.successors x hx]
      exact hc.nodup_map hout (hg.outs_nodup x)
    · simp [successors_of_not_contains hy]
  · refine hc.forall_keys (P := fun b => (copy.predecessors b).Nodup) (fun x hx => ?_)
      (fun y hy => ?_) b
    · rw [hc.predecessors x hx]
      exact hc.nodup_map hin (hg.ins_nodup x)
    · simp [predecessors_of_not_contains hy]
  · refine hc.forall_keys (P := fun a => b ∈ copy.successors a ↔ a ∈ copy.predecessors b)
      (fun x hx => ?_) (fun a ha => ?_) a
    · refine hc.forall_keys (P := fun b => b ∈ copy.successors (φ x) ↔ φ x ∈ copy.predecessors b)
        (fun y hy => ?_) (fun b hb => ?_) b
      · rw [hc.successors x hx, hc.predecessors y hy, hc.mem_map_iff hy hout,
          hc.mem_map_iff hx hin]
        exact hg.edge x y
      · rw [hc.successors x hx, predecessors_of_not_contains hb]
        refine iff_of_false (fun hmem => ?_) List.not_mem_nil
        obtain ⟨y, hy, rfl⟩ := List.mem_map.mp hmem
        simp [hc.contains (hg.target hy)] at hb
    · rw [successors_of_not_contains ha]
      refine iff_of_false List.not_mem_nil fun hmem => ?_
      refine hc.forall_keys (P := fun b => a ∉ copy.predecessors b) (fun y hy => ?_)
        (fun b hb => ?_) b hmem
      · rw [hc.predecessors y hy]
        intro hmem
        obtain ⟨x, hx, rfl⟩ := List.mem_map.mp hmem
        simp [hc.contains (hg.source hx)] at ha
      · simp [predecessors_of_not_contains hb]
  · refine hc.forall_keys (P := fun a => a ∉ copy.successors a) (fun x hx => ?_)
      (fun y hy => ?_) a
    · rw [hc.successors x hx, hc.mem_map_iff hx hout]
      exact hg.irrefl x
    · simp [successors_of_not_contains hy]

/-! ## The order of a copy -/

theorem sources_eq (hg : g.WellFormed) : copy.sources = g.sources.map φ := by
  unfold sources
  rw [hc.ids, List.filter_map]
  congr 1
  refine List.filter_congr fun x hx => ?_
  rw [Function.comp_apply, hc.predecessors x (hg.contains_of_mem hx), List.isEmpty_map]

theorem topologicalOrder_eq (hg : g.WellFormed) :
    copy.topologicalOrder = g.topologicalOrder.map (List.map φ) :=
  Renamed.topologicalOrder_eq ⟨hc.bijective.injOn, hc.successors, hc.predecessors⟩ hg
    (hc.sources_eq hg) (hc.size_eq hg (hc.wellFormed hg)).symm

theorem acyclic (hg : g.WellFormed) (hac : g.Acyclic) : copy.Acyclic := by
  obtain ⟨ids, ho⟩ := exists_topologicalOrder hg hac
  refine (exists_topologicalOrder_iff (hc.wellFormed hg)).mp ⟨ids.map φ, ?_⟩
  rw [hc.topologicalOrder_eq hg, ho]
  rfl

/-- A path leads from one node to another exactly if one leads between their new keys. -/
theorem reaches_iff (hg : g.WellFormed) {a b : NodeId} (ha : g.contains a = true)
    (hb : g.contains b = true) : copy.reaches (φ a) (φ b) = true ↔ g.reaches a b = true := by
  constructor
  · intro hab
    -- the new keys of what `a` reaches
    have hback : ∃ x, g.reaches a x = true ∧ g.contains x = true ∧ φ b = φ x := by
      refine reaches_induction (R := fun y => ∃ x, g.reaches a x = true ∧ g.contains x = true ∧
        y = φ x) ⟨a, reaches_self, ha, rfl⟩ ?_ hab
      rintro y ⟨x, hx, hxc, rfl⟩ z hz
      rw [hc.successors x hxc] at hz
      obtain ⟨w, hw, rfl⟩ := List.mem_map.mp hz
      exact ⟨w, reaches_of_edge hx hw, hg.target hw, rfl⟩
    obtain ⟨x, hx, hxc, heq⟩ := hback
    exact hc.inj hb hxc heq ▸ hx
  · intro hab
    refine reaches_induction (R := fun x => copy.reaches (φ a) (φ x) = true) reaches_self ?_ hab
    intro x hx y hy
    refine reaches_of_edge hx ?_
    rw [hc.successors x (contains_of_mem_successors hy)]
    exact List.mem_map_of_mem hy

end ExactCopy

/-! ## Making a copy -/

section Inputs

variable (hnames : ∀ x : NodeId, names[x]? = if g.contains x = true then some (φ x) else none)

include hnames

/-- The inputs of a node under their new keys. -/
theorem filterMap_predecessors (hg : g.WellFormed) :
    (g.predecessors x).filterMap (names[·]?) = (g.predecessors x).map φ := by
  rw [← List.filterMap_eq_map]
  refine List.filterMap_congr fun y hy => ?_
  rw [hnames, if_pos (hg.source hy)]
  rfl

theorem predecessors_copyInputs (hg : g.WellFormed) (hid : g.contains id = true) :
    (copyInputs names g copy id).predecessors y =
      if y = φ id ∧ copy.contains y = true then (g.predecessors id).map φ
      else copy.predecessors y := by
  unfold copyInputs
  rw [hnames, if_pos hid]
  dsimp only
  rw [filterMap_predecessors hnames hg, contains_eq]
  unfold predecessors
  dsimp only
  rw [getElem?_modify]
  by_cases hy : y = φ id
  · subst hy
    cases copy.vertices[φ id]? <;> simp
  · simp [hy]

theorem sameNodes_copyInputs (copy : Graph α) (hid : g.contains id = true) :
    SameNodes copy (copyInputs names g copy id) ∧
      ∀ y, (copyInputs names g copy id).successors y = copy.successors y := by
  unfold copyInputs
  rw [hnames, if_pos hid]
  refine ⟨⟨rfl, rfl, fun y => ?_⟩, fun y => ?_⟩
  · unfold content?
    dsimp only
    rw [getElem?_modify]
    by_cases hy : y = φ id
    · cases copy.vertices[y]? <;> simp [hy]
    · simp [hy]
  · unfold successors
    dsimp only
    rw [getElem?_modify]
    by_cases hy : y = φ id
    · cases copy.vertices[y]? <;> simp [hy]
    · simp [hy]

/-- Writing the inputs down changes nothing else. -/
theorem foldl_copyInputs_spec (hg : g.WellFormed)
    (hinj : ∀ x y, g.contains x = true → g.contains y = true → φ x = φ y → x = y) :
    ∀ {ids : List NodeId} {copy : Graph α}, (∀ x ∈ ids, g.contains x = true) →
      (∀ x, g.contains x = true → copy.contains (φ x) = true) →
      SameNodes copy (ids.foldl (copyInputs names g) copy) ∧
        (∀ y, (ids.foldl (copyInputs names g) copy).successors y = copy.successors y) ∧
        ∀ x, g.contains x = true → (ids.foldl (copyInputs names g) copy).predecessors (φ x) =
          if x ∈ ids then (g.predecessors x).map φ else copy.predecessors (φ x)
  | [], copy, _, _ => ⟨.refl, fun _ => rfl, fun x _ => by simp⟩
  | id :: ids, copy, hids, hcopy => by
    have hid := hids id (by simp)
    obtain ⟨hsame, hsuc⟩ := sameNodes_copyInputs hnames copy hid
    have hcopy' : ∀ x, g.contains x = true →
        (copyInputs names g copy id).contains (φ x) = true := fun x hx => by
      rw [hsame.contains, hcopy x hx]
    obtain ⟨hsame', hsuc', hpre'⟩ := foldl_copyInputs_spec hg hinj
      (fun x hx => hids x (List.mem_cons_of_mem id hx)) hcopy'
    refine ⟨hsame.trans hsame', fun y => (hsuc' y).trans (hsuc y), fun x hx => ?_⟩
    refine (hpre' x hx).trans ?_
    rw [predecessors_copyInputs hnames hg hid]
    have hiff : φ x = φ id ↔ x = id := ⟨hinj x id hx hid, congrArg φ⟩
    by_cases hxid : x = id
    · subst hxid
      simp [hcopy x hx]
    · simp [hiff, hxid]

end Inputs

/-- The inputs of a copy are written down in the order of the original; the rest is as it was
drawn. -/
theorem Copied.exactCopy {drawn : Graph α} (hd : Copied g empty drawn g.ids φ) (hg : g.WellFormed)
    (hnames : ∀ x : NodeId, names[x]? = if g.contains x = true then some (φ x) else none) :
    ExactCopy g (g.ids.foldl (copyInputs names g) drawn) φ ∧
      (g.ids.foldl (copyInputs names g) drawn).KeysBelow := by
  have hmem : ∀ {x}, g.contains x = true → x ∈ g.ids := fun {x} hx => (hg.mem_ids x).mpr hx
  have hids : drawn.ids = g.ids.map φ := hd.ids
  have hcontains : ∀ x, g.contains x = true → drawn.contains (φ x) = true := fun x hx => by
    rw [← content?_isSome, hd.content? x (hmem hx), content?_isSome, hx]
  have hinj : ∀ x y, g.contains x = true → g.contains y = true → φ x = φ y → x = y :=
    fun x y hx hy => hd.inj (hmem hx) (hmem hy)
  obtain ⟨hsame, hsuc, hpre⟩ := foldl_copyInputs_spec hnames hg hinj
    (fun x hx => hg.contains_of_mem hx) hcontains
  refine ⟨⟨⟨⟨fun x hx => ?_, fun x hx y hy heq => hinj x y hx hy heq, fun y hy => ?_⟩,
    fun x c hc => ?_, fun x hx => ?_, fun x hx => ?_⟩, ?_⟩, ?_⟩
  · exact (hsame.contains).trans (hcontains x hx)
  · have hy : drawn.contains y = true := (hsame.contains).symm.trans hy
    rw [← hd.wellFormed.mem_ids, hids] at hy
    obtain ⟨x, hx, rfl⟩ := List.mem_map.mp hy
    exact ⟨x, hg.contains_of_mem hx, rfl⟩
  · refine ⟨c, ?_, rfl⟩
    rw [hsame.content?, hd.content? x (hmem (contains_of_content? hc)), hc]
  · rw [hsuc, hd.successors x (hmem hx)]
  · rw [hpre x hx, if_pos (hmem hx)]
  · rw [hsame.ids, hids]
  · exact hd.keysBelow.congr hsame.ids hsame.nextKey

/-- Cloning a graph succeeds; the new keys are recorded for the nodes of the graph and for no
others. -/
theorem clone_spec (hg : g.WellFormed) (hk : g.KeysBelow) : ∃ names copy φ,
    g.clone = .ok (names, copy) ∧
      (∀ x : NodeId, names[x]? = if g.contains x = true then some (φ x) else none) ∧
      ExactCopy g copy φ ∧ copy.KeysBelow := by
  have hroom : (empty : Graph α).nextKey.toNat + g.ids.length < 2 ^ 64 := by
    have := length_ids_le hg hk
    have := g.nextKey.toNat_lt
    have : (empty : Graph α).nextKey.toNat = 0 := rfl
    omega
  obtain ⟨names, g₁, g₂, φ, hadd, hdraw, hnames, hcopied⟩ := copyPart_spec hg .empty .empty
    hg.ids_nodup (fun x hx => hg.contains_of_mem hx)
    (fun x _ y hy => (hg.mem_ids y).mpr (hg.target hy)) hroom
  simp only [hg.mem_ids] at hnames
  obtain ⟨hexact, hkeys⟩ := hcopied.exactCopy hg hnames
  refine ⟨names, _, φ, ?_, hnames, hexact, hkeys⟩
  have hadd' : (empty : Graph α).addAll g.toList = (names, g₁) := hadd
  unfold clone
  rw [hadd']
  dsimp only
  rw [hdraw]

end Dataflow.Graph

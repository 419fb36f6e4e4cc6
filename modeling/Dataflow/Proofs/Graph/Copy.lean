import Dataflow.Graph.Copy
import Dataflow.Proofs.Graph.Edit
import Dataflow.Proofs.Graph.Order
import Dataflow.Proofs.Graph.Reach

/-!
# Copies of parts of graphs

What `absorb` adds to a graph is said by `Copied`: every node that can be reached from the root has
a new key, under which the graph has its content and, renamed, its outputs. The key counter must not
run over, since keys would repeat then.
-/

namespace Dataflow.Graph

variable {α : Type} {g g' source : Graph α} {a b x y root : NodeId} {c : α}
  {φ : NodeId → NodeId}

/-! ## Adding nodes -/

theorem fresh_of_keysBelow (h : g.WellFormed) (hk : g.KeysBelow) :
    g.contains ⟨g.nextKey⟩ = false := by
  by_contra hc
  have := hk ⟨g.nextKey⟩ ((h.mem_ids _).mpr (by simpa using hc))
  exact absurd this (Nat.lt_irrefl _)

theorem toNat_nextKey_succ (hroom : g.nextKey.toNat + 1 < 2 ^ 64) :
    (g.nextKey + 1).toNat = g.nextKey.toNat + 1 := by
  rw [UInt64.toNat_add, Nat.mod_eq_of_lt (by simpa using hroom)]
  rfl

@[simp] theorem add_fst : (g.add c).1 = ⟨g.nextKey⟩ := rfl

@[simp] theorem ids_add : (g.add c).2.ids = g.ids ++ [⟨g.nextKey⟩] := rfl

@[simp] theorem nextKey_add : (g.add c).2.nextKey = g.nextKey + 1 := rfl

@[simp] theorem successors_add : (g.add c).2.successors x = g.successors x :=
  successors_place (g := g)

@[simp] theorem predecessors_add : (g.add c).2.predecessors x = g.predecessors x :=
  predecessors_place (g := g)

theorem content?_add :
    (g.add c).2.content? x = if x = ⟨g.nextKey⟩ then some c else g.content? x :=
  content?_place (g := g)

theorem WellFormed.add (h : g.WellFormed) (hk : g.KeysBelow) : (g.add c).2.WellFormed :=
  (h.place (fresh_of_keysBelow h hk)).nextKey

theorem KeysBelow.add (hk : g.KeysBelow) (hroom : g.nextKey.toNat + 1 < 2 ^ 64) :
    (g.add c).2.KeysBelow := by
  intro id hid
  rw [nextKey_add, toNat_nextKey_succ hroom]
  rcases List.mem_append.mp hid with hid | hid
  · exact Nat.lt_succ_of_lt (hk id hid)
  · obtain rfl : id = ⟨g.nextKey⟩ := by simpa using hid
    exact Nat.lt_succ_self _

/-- The state of copying contents, before the edges are drawn. -/
def addEach (state : Renaming × Graph α) (items : List (NodeId × α)) : Renaming × Graph α :=
  items.foldl (fun (names, g) (old, a) =>
    let (new, g) := g.add a
    (names.insert old new, g)) state

theorem addEach_spec : ∀ {items : List (NodeId × α)} {names : Renaming} {g : Graph α},
    (items.map Prod.fst).Nodup → g.WellFormed → g.KeysBelow →
    g.nextKey.toNat + items.length < 2 ^ 64 →
    let names' := (addEach (names, g) items).1
    let g' := (addEach (names, g) items).2
    (g'.WellFormed ∧ g'.KeysBelow ∧ g'.nextKey.toNat = g.nextKey.toNat + items.length) ∧
      g'.ids = g.ids ++ items.map (fun p => (names'[p.1]?).getD default) ∧
      (∀ x, x ∉ items.map Prod.fst → names'[x]? = names[x]?) ∧
      (∀ x c, (x, c) ∈ items → ∃ new, names'[x]? = some new ∧ g'.content? new = some c) ∧
      (∀ x, g.contains x = true → g'.content? x = g.content? x) ∧
      (∀ x, g'.successors x = g.successors x) ∧ ∀ x, g'.predecessors x = g.predecessors x
  | [], names, g, _, h, hk, _ => by simp [addEach, h, hk]
  | (old, c) :: items, names, g, hn, h, hk, hroom => by
    simp only [List.map_cons, List.nodup_cons, List.length_cons] at hn hroom
    have hroom1 : g.nextKey.toNat + 1 < 2 ^ 64 := by omega
    have hkey := toNat_nextKey_succ hroom1
    obtain ⟨⟨h', hk', hlen⟩, hids, hout, hin, hold, hsuc, hpre⟩ :=
      addEach_spec hn.2
        (h.add (c := c) hk) (hk.add hroom1) (by rw [nextKey_add, hkey]; omega)
    have hold' : (addEach (names.insert old ⟨g.nextKey⟩, (g.add c).2) items).1[old]? =
        some ⟨g.nextKey⟩ := by
      rw [hout old hn.1]; simp
    have hfresh := fresh_of_keysBelow h hk
    dsimp only
    change (WellFormed (addEach (names.insert old ⟨g.nextKey⟩, (g.add c).2) items).2 ∧ _) ∧ _
    refine ⟨⟨h', hk', ?_⟩, ?_, fun x hx => ?_, fun x d hx => ?_, fun x hx => ?_, fun x => ?_,
      fun x => ?_⟩
    · refine hlen.trans ?_
      rw [nextKey_add, hkey, List.length_cons]; omega
    · refine hids.trans ?_
      rw [ids_add, List.map_cons, List.append_assoc]
      congr 1
      change [_] ++ _ = ((addEach (names.insert old ⟨g.nextKey⟩, (g.add c).2) items).1[old]?).getD
        default :: _
      rw [hold']
      rfl
    · rw [List.map_cons, List.mem_cons, not_or] at hx
      refine (hout x hx.2).trans ?_
      rw [getElem?_insert, if_neg hx.1]
    · rcases List.mem_cons.mp hx with heq | hx
      · obtain ⟨rfl, rfl⟩ := Prod.mk.inj heq
        refine ⟨⟨g.nextKey⟩, hold', ?_⟩
        refine (hold _ (contains_of_content? (c := d) ?_)).trans ?_ <;> simp [content?_add]
      · exact hin x d hx
    · have hne : x ≠ ⟨g.nextKey⟩ := by rintro rfl; simp [hfresh] at hx
      obtain ⟨d, hd⟩ := exists_content? hx
      have hd' : (g.add c).2.content? x = some d := by rw [content?_add, if_neg hne, hd]
      exact ((hold x (contains_of_content? hd')).trans hd').trans hd.symm
    · exact (hsuc x).trans successors_add
    · exact (hpre x).trans predecessors_add

/-! ## Drawing edges -/

/-- An edge that is not there yet is drawn behind the others. -/
theorem connect_spec (h : g.WellFormed) (ha : g.contains a = true) (hb : g.contains b = true)
    (hab : a ≠ b) (hnew : b ∉ g.successors a) :
    ∃ g', g.connect a b = .ok g' ∧ g'.WellFormed ∧ SameNodes g g' ∧
      (∀ x, g'.successors x = if x = a then g.successors a ++ [b] else g.successors x) ∧
      ∀ x, g'.predecessors x = if x = b then g.predecessors b ++ [a] else g.predecessors x := by
  obtain ⟨g', hrun, h', hdrawn⟩ :=
    h.exists_connectAt ha hb hab hnew (Nat.le_refl _) (Nat.le_refl _)
  obtain ⟨-, hsuc, hpre, -⟩ := connect_views (g := g) hrun
  exact ⟨g', hrun, h', hdrawn.nodes, hsuc, hpre⟩

theorem connectAll_spec {names : Renaming} (hinj : ∀ x y k : NodeId, names[x]? = some k →
      names[y]? = some k → x = y) : ∀ {edges : List (NodeId × NodeId)} {g : Graph α},
    g.WellFormed → edges.Nodup →
    (∀ x y, (x, y) ∈ edges → x ≠ y ∧ ∃ k l, names[x]? = some k ∧ names[y]? = some l ∧
      g.contains k = true ∧ g.contains l = true ∧ l ∉ g.successors k) →
    ∃ g', connectAll names edges g = .ok () g' ∧ g'.WellFormed ∧ SameNodes g g' ∧
      (∀ k, g'.successors k = g.successors k ++
        (edges.filter fun e => names[e.1]? = some k).filterMap fun e => names[e.2]?) ∧
      ∀ k, g'.predecessors k = g.predecessors k ++
        (edges.filter fun e => names[e.2]? = some k).filterMap fun e => names[e.1]?
  | [], g, h, _, _ => ⟨g, rfl, h, .refl, fun k => by simp, fun k => by simp⟩
  | (a, b) :: edges, g, h, hn, hedges => by
    obtain ⟨hab, hn⟩ := List.nodup_cons.mp hn
    obtain ⟨hne, k, l, hk, hl, hck, hcl, hnew⟩ := hedges a b (by simp)
    have hkl : k ≠ l := by rintro rfl; exact hne (hinj a b k hk hl)
    obtain ⟨g₁, hc, h₁, hsame, hsuc, hpre⟩ := connect_spec h hck hcl hkl hnew
    obtain ⟨g', hrun, h', hsame', hsuc', hpre'⟩ := connectAll_spec hinj h₁ hn fun x y hxy => by
        obtain ⟨hxny, k', l', hk', hl', hck', hcl', hnew'⟩ := hedges x y (by simp [hxy])
        refine ⟨hxny, k', l', hk', hl', by rwa [hsame.contains], by rwa [hsame.contains], ?_⟩
        rw [hsuc]
        split
        · rename_i hkk
          subst hkk
          rw [List.mem_append, not_or]
          refine ⟨hnew', fun hmem => hab ?_⟩
          obtain rfl : l' = l := by simpa using hmem
          rw [← hinj x a k' hk' hk, ← hinj y b l' hl' hl]
          exact hxy
        · exact hnew'
    refine ⟨g', ?_, h', hsame.trans hsame', fun z => ?_, fun z => ?_⟩
    · simp only [connectAll, hk, hl]
      exact (Pass.bind_of_ok (perform_eq_ok (u := ()).mpr hc)).trans hrun
    · rw [hsuc', hsuc]
      by_cases hz : z = k
      · subst hz; simp [hk, hl]
      · simp [hz, hk, Ne.symm hz]
    · rw [hpre', hpre]
      by_cases hz : z = l
      · subst hz; simp [hk, hl]
      · simp [hz, hl, Ne.symm hz]

theorem mem_edgesFrom {ids : List NodeId} :
    (x, y) ∈ source.edgesFrom ids ↔ x ∈ ids ∧ y ∈ source.successors x := by
  simp only [edgesFrom, List.mem_flatMap, List.mem_map, Prod.mk.injEq]
  constructor
  · rintro ⟨a, ha, b, hb, rfl, rfl⟩; exact ⟨ha, hb⟩
  · rintro ⟨hx, hy⟩; exact ⟨x, hx, y, hy, rfl, rfl⟩

theorem edgesFrom_nodup (h : source.WellFormed) : ∀ {ids : List NodeId}, ids.Nodup →
    (source.edgesFrom ids).Nodup
  | [], _ => List.nodup_nil
  | a :: ids, hn => by
    obtain ⟨ha, hn⟩ := List.nodup_cons.mp hn
    have hcons : source.edgesFrom (a :: ids) =
        (source.successors a).map (fun b => (a, b)) ++ source.edgesFrom ids := rfl
    rw [hcons]
    refine List.nodup_append.mpr ⟨?_, edgesFrom_nodup h hn, ?_⟩
    · exact (List.nodup_map_iff fun _ _ heq => (Prod.mk.inj heq).2).mpr (h.outs_nodup a)
    · rintro ⟨x, y⟩ hxy e he rfl
      obtain ⟨z, -, heq⟩ := List.mem_map.mp hxy
      obtain ⟨rfl, -⟩ := Prod.mk.inj heq
      exact ha (mem_edgesFrom.mp he).1

/-- Among the edges from the listed nodes, those out of `x` lead to its outputs in order. -/
theorem filter_edgesFrom : ∀ {ids : List NodeId}, ids.Nodup →
    (source.edgesFrom ids).filter (fun e => e.1 = x) =
      if x ∈ ids then (source.successors x).map (fun b => (x, b)) else []
  | [], _ => by simp [edgesFrom]
  | a :: ids, hn => by
    obtain ⟨ha, hn⟩ := List.nodup_cons.mp hn
    have hcons : source.edgesFrom (a :: ids) =
        (source.successors a).map (fun b => (a, b)) ++ source.edgesFrom ids := rfl
    rw [hcons, List.filter_append, filter_edgesFrom hn, List.filter_map]
    by_cases hx : a = x
    · subst hx
      have : (source.successors a).filter ((fun e : NodeId × NodeId => decide (e.1 = a)) ∘
          fun b => (a, b)) = source.successors a := by simp [Function.comp_def]
      simp [ha, this]
    · have : (source.successors a).filter ((fun e : NodeId × NodeId => decide (e.1 = x)) ∘
          fun b => (a, b)) = [] := by simp [Function.comp_def, hx]
      simp [this, Ne.symm hx]

/-- Among the edges from the listed nodes, those into `y` come from the nodes with that output. -/
theorem map_fst_filter_edgesFrom (h : source.WellFormed) : ∀ {ids : List NodeId},
    ((source.edgesFrom ids).filter fun e => e.2 = y).map Prod.fst =
      ids.filter fun a => y ∈ source.successors a
  | [] => rfl
  | a :: ids => by
    have hcons : source.edgesFrom (a :: ids) =
        (source.successors a).map (fun b => (a, b)) ++ source.edgesFrom ids := rfl
    have hone : (source.successors a).filter (fun b => decide (b = y)) =
        if y ∈ source.successors a then [y] else [] := by
      rw [List.filter_eq, (h.outs_nodup a).count]
      split <;> rfl
    rw [hcons, List.filter_append, List.map_append, map_fst_filter_edgesFrom h, List.filter_map,
      List.map_map, List.filter_cons]
    simp only [Function.comp_def, hone]
    split <;> simp_all

/-! ## Copies -/

/-- The listed nodes of `source` were copied into `g`, which became `g'`; `φ` gives the new keys.
The outputs of a copy are in the order of the original, its inputs in the order of the list. -/
structure Copied (source g g' : Graph α) (part : List NodeId) (φ : NodeId → NodeId) : Prop where
  wellFormed : g'.WellFormed
  keysBelow : g'.KeysBelow
  nextKey : g'.nextKey.toNat = g.nextKey.toNat + part.length
  ids : g'.ids = g.ids ++ part.map φ
  content? : ∀ x ∈ part, g'.content? (φ x) = source.content? x
  successors : ∀ x ∈ part, g'.successors (φ x) = (source.successors x).map φ
  predecessors : ∀ x ∈ part, g'.predecessors (φ x) =
    (part.filter fun z => x ∈ source.successors z).map φ
  old_content? : ∀ x, g.contains x = true → g'.content? x = g.content? x
  old_successors : ∀ x, g.contains x = true → g'.successors x = g.successors x
  old_predecessors : ∀ x, g.contains x = true → g'.predecessors x = g.predecessors x

/-- The listed nodes with their contents. -/
def contents (source : Graph α) (ids : List NodeId) : List (NodeId × α) :=
  ids.filterMap fun id => (source.content? id).map (id, ·)

theorem mem_contents {ids : List NodeId} :
    (x, c) ∈ source.contents ids ↔ x ∈ ids ∧ source.content? x = some c := by
  simp only [contents, List.mem_filterMap, Option.map_eq_some_iff, Prod.mk.injEq]
  constructor
  · rintro ⟨z, hz, d, hd, rfl, rfl⟩; exact ⟨hz, hd⟩
  · rintro ⟨hx, hc⟩; exact ⟨x, hx, c, hc, rfl, rfl⟩

theorem map_fst_contents : ∀ {ids : List NodeId}, (∀ x ∈ ids, source.contains x = true) →
    (source.contents ids).map Prod.fst = ids
  | [], _ => rfl
  | x :: ids, h => by
    obtain ⟨c, hc⟩ := exists_content? (h x (by simp))
    have ih := map_fst_contents fun y hy => h y (List.mem_cons_of_mem x hy)
    rw [contents] at ih ⊢
    rw [List.filterMap_cons, hc, Option.map_some, List.map_cons, ih]

theorem absorb_eq_ok {names : Renaming} {g₁ g₂ : Graph α} {new : NodeId}
    (hroot : root ∈ source.descendants root)
    (hadd : addEach ({}, g) (source.contents (source.descendants root)) = (names, g₁))
    (hdraw : connectAll names (source.edgesFrom (source.descendants root)) g₁ = .ok () g₂)
    (hnew : names[root]? = some new) : absorb source root g = .ok new g₂ := by
  have hne : (source.descendants root).isEmpty = false := by
    rw [List.isEmpty_eq_false_iff]; exact List.ne_nil_of_mem hroot
  have hadd' : g.addAll ((source.descendants root).filterMap fun id =>
      (source.content? id).map (id, ·)) = (names, g₁) := hadd
  unfold absorb
  simp only [hne, Bool.false_eq_true, if_false]
  rw [Pass.bind_of_ok Pass.get_apply, hadd', Pass.bind_of_ok Pass.set_apply,
    Pass.bind_of_ok hdraw, hnew]
  rfl

/-- Keys that come behind those of a graph are none of its keys. -/
theorem not_contains_of_ids {part : List NodeId} (h' : g'.WellFormed)
    (hids : g'.ids = g.ids ++ part.map φ) (h : g.WellFormed) (hx : x ∈ part) :
    g.contains (φ x) = false := by
  have hnodup := h'.ids_nodup
  rw [hids] at hnodup
  by_contra hc
  exact (List.nodup_append.mp hnodup).2.2 (φ x) ((h.mem_ids _).mpr (by simpa using hc)) (φ x)
    (List.mem_map_of_mem hx) rfl

/-- Different nodes have different keys. -/
theorem inj_of_ids {part : List NodeId} (h' : g'.WellFormed) (hids : g'.ids = g.ids ++ part.map φ)
    (hx : x ∈ part) (hy : y ∈ part) (heq : φ x = φ y) : x = y := by
  have hnodup := h'.ids_nodup
  rw [hids] at hnodup
  exact List.inj_on_of_nodup_map (List.nodup_append.mp hnodup).2.1 hx hy heq

/-- The nodes in `part` have new keys, each its own, and no other node has one. -/
structure Keyed (names : Renaming) (part : List NodeId) (φ : NodeId → NodeId) : Prop where
  names : ∀ x : NodeId, names[x]? = if x ∈ part then some (φ x) else none
  inj : ∀ x ∈ part, ∀ y ∈ part, φ x = φ y → x = y

namespace Keyed

variable {names : Renaming} {part : List NodeId} {edges : List (NodeId × NodeId)} {k : NodeId}
  (h : Keyed names part φ)

include h

theorem of_mem (hx : x ∈ part) : names[x]? = some (φ x) := by
  rw [h.names, if_pos hx]

theorem unique (hx : names[x]? = some k) (hy : names[y]? = some k) : x = y := by
  rw [h.names, Option.ite_none_right_eq_some] at hx hy
  exact h.inj x hx.1 y hy.1 (Option.some.inj (hx.2.trans hy.2.symm))

/-- The edges with an end at a new key are those with that end at the old one. -/
theorem filter_eq (side : NodeId × NodeId → NodeId) (hx : x ∈ part) :
    edges.filter (fun e => names[side e]? = some (φ x)) = edges.filter fun e => side e = x := by
  refine List.filter_congr fun e _ => decide_eq_decide.mpr ⟨fun he => ?_, fun he => ?_⟩
  · exact h.unique he (h.of_mem hx)
  · rw [he, h.of_mem hx]

theorem filter_eq_nil (side : NodeId × NodeId → NodeId) (hk : ∀ x ∈ part, φ x ≠ k) :
    edges.filter (fun e => names[side e]? = some k) = [] := by
  rw [List.filter_eq_nil_iff]
  intro e _ he
  have he := of_decide_eq_true he
  rw [h.names, Option.ite_none_right_eq_some] at he
  exact hk _ he.1 (Option.some.inj he.2)

end Keyed

/-- The contents of the nodes in `part` stand in `g'` under new keys, which come last. No edge was
drawn yet. -/
structure Added (source g g' : Graph α) (part : List NodeId) (φ : NodeId → NodeId) : Prop where
  wellFormed : g'.WellFormed
  keysBelow : g'.KeysBelow
  nextKey : g'.nextKey.toNat = g.nextKey.toNat + part.length
  ids : g'.ids = g.ids ++ part.map φ
  content? : ∀ x ∈ part, g'.content? (φ x) = source.content? x
  old_content? : ∀ x, g.contains x = true → g'.content? x = g.content? x
  successors : ∀ x, g'.successors x = g.successors x
  predecessors : ∀ x, g'.predecessors x = g.predecessors x

theorem addPart_spec {part : List NodeId} (h : g.WellFormed) (hk : g.KeysBelow) (hn : part.Nodup)
    (hpart : ∀ x ∈ part, source.contains x = true)
    (hroom : g.nextKey.toNat + part.length < 2 ^ 64) :
    ∃ names g₁ φ, addEach ({}, g) (source.contents part) = (names, g₁) ∧ Keyed names part φ ∧
      Added source g g₁ part φ := by
  have hfst : (source.contents part).map Prod.fst = part := map_fst_contents hpart
  have hlen := congrArg List.length hfst
  rw [List.length_map] at hlen
  obtain ⟨⟨h₁, hk₁, hkey⟩, hids, hout, hin, hold, hsuc₁, hpre₁⟩ :=
    @addEach_spec _ _ {} _ (hfst.symm ▸ hn) h hk (by rw [hlen]; exact hroom)
  rw [hfst] at hout
  rw [hlen] at hkey
  generalize addEach ({}, g) (source.contents part) = added at *
  obtain ⟨names, g₁⟩ := added
  dsimp only at h₁ hk₁ hkey hids hout hin hold hsuc₁ hpre₁
  -- the new keys
  let φ : NodeId → NodeId := fun x => (names[x]?).getD default
  have hname : ∀ x ∈ part, names[x]? = some (φ x) ∧ g₁.content? (φ x) = source.content? x := by
    intro x hx
    obtain ⟨c, hc⟩ := exists_content? (hpart x hx)
    obtain ⟨k, hk, hkc⟩ := hin x c (mem_contents.mpr ⟨hx, hc⟩)
    have hφ : φ x = k := by simp [φ, hk]
    exact ⟨by rw [hφ, hk], by rw [hφ, hkc, hc]⟩
  have hids' : g₁.ids = g.ids ++ part.map φ := by
    rw [hids]
    conv_rhs => rw [← hfst]
    rw [List.map_map]
    rfl
  refine ⟨names, g₁, φ, rfl, ⟨fun x => ?_, fun x hx y hy => ?_⟩,
    ⟨h₁, hk₁, hkey, hids', fun x hx => (hname x hx).2, hold, hsuc₁, hpre₁⟩⟩
  · by_cases hx : x ∈ part
    · rw [if_pos hx, (hname x hx).1]
    · rw [if_neg hx, hout x hx]
      simp
  · exact inj_of_ids h₁ hids' hx hy

/-- Nodes whose outputs are among them are copied with their edges, and the new keys are
recorded. -/
theorem copyPart_spec {part : List NodeId} (hs : source.WellFormed) (h : g.WellFormed)
    (hk : g.KeysBelow) (hn : part.Nodup) (hpart : ∀ x ∈ part, source.contains x = true)
    (hclosed : ∀ x ∈ part, ∀ y ∈ source.successors x, y ∈ part)
    (hroom : g.nextKey.toNat + part.length < 2 ^ 64) :
    ∃ names g₁ g₂ φ, addEach ({}, g) (source.contents part) = (names, g₁) ∧
      connectAll names (source.edgesFrom part) g₁ = .ok () g₂ ∧
      (∀ x : NodeId, names[x]? = if x ∈ part then some (φ x) else none) ∧
      Copied source g g₂ part φ := by
  obtain ⟨names, g₁, φ, hadd, hkeyed, hadded⟩ := addPart_spec h hk hn hpart hroom
  have hnew : ∀ x ∈ part, g.contains (φ x) = false := fun x hx =>
    not_contains_of_ids hadded.wellFormed hadded.ids h hx
  have hsucNil : ∀ x ∈ part, g₁.successors (φ x) = [] := fun x hx => by
    rw [hadded.successors, successors_of_not_contains (hnew x hx)]
  have hpreNil : ∀ x ∈ part, g₁.predecessors (φ x) = [] := fun x hx => by
    rw [hadded.predecessors, predecessors_of_not_contains (hnew x hx)]
  have hcontains : ∀ x ∈ part, g₁.contains (φ x) = true := fun x hx => by
    rw [← content?_isSome, hadded.content? x hx, content?_isSome]
    exact hpart x hx
  have hedges : ∀ x y, (x, y) ∈ source.edgesFrom part → x ≠ y ∧ ∃ k l, names[x]? = some k ∧
      names[y]? = some l ∧ g₁.contains k = true ∧ g₁.contains l = true ∧
      l ∉ g₁.successors k := by
    intro x y hxy
    obtain ⟨hx, hy⟩ := mem_edgesFrom.mp hxy
    have hy' := hclosed x hx y hy
    exact ⟨hs.ne_of_edge hy, φ x, φ y, hkeyed.of_mem hx, hkeyed.of_mem hy', hcontains x hx,
      hcontains y hy', by rw [hsucNil x hx]; simp⟩
  obtain ⟨g₂, hrun, h₂, hsame, hsuc₂, hpre₂⟩ :=
    connectAll_spec (fun _ _ _ => hkeyed.unique) hadded.wellFormed (edgesFrom_nodup hs hn) hedges
  -- no edge was drawn at a key that was there before
  have hne : ∀ x, g.contains x = true → ∀ y ∈ part, φ y ≠ x := by
    rintro x hx y hy rfl
    rw [hnew y hy] at hx
    cases hx
  refine ⟨names, g₁, g₂, φ, hadd, hrun, hkeyed.names,
    ⟨h₂, hadded.keysBelow.congr hsame.ids hsame.nextKey, ?_, ?_, fun x hx => ?_, fun x hx => ?_,
    fun x hx => ?_, fun x hx => ?_, fun x hx => ?_, fun x hx => ?_⟩⟩
  · rw [hsame.nextKey, hadded.nextKey]
  · rw [hsame.ids, hadded.ids]
  · rw [hsame.content?, hadded.content? x hx]
  · rw [hsuc₂, hsucNil x hx, List.nil_append, hkeyed.filter_eq Prod.fst hx, filter_edgesFrom hn,
      if_pos hx, List.filterMap_map, ← List.filterMap_eq_map]
    exact List.filterMap_congr fun y hy => hkeyed.of_mem (hclosed x hx y hy)
  · rw [hpre₂, hpreNil x hx, List.nil_append, hkeyed.filter_eq Prod.snd hx,
      ← map_fst_filter_edgesFrom hs, List.map_map, ← List.filterMap_eq_map]
    exact List.filterMap_congr fun e he =>
      hkeyed.of_mem (mem_edgesFrom.mp (List.mem_of_mem_filter he)).1
  · rw [hsame.content?, hadded.old_content? x hx]
  · rw [hsuc₂, hkeyed.filter_eq_nil Prod.fst (hne x hx), hadded.successors]
    simp
  · rw [hpre₂, hkeyed.filter_eq_nil Prod.snd (hne x hx), hadded.predecessors]
    simp

theorem absorb_spec (hs : source.WellFormed) (h : g.WellFormed) (hk : g.KeysBelow)
    (hroot : source.contains root = true)
    (hroom : g.nextKey.toNat + (source.descendants root).length < 2 ^ 64) :
    ∃ g' φ, absorb source root g = .ok (φ root) g' ∧
      Copied source g g' (source.descendants root) φ := by
  have hself := self_mem_descendants hroot
  obtain ⟨names, g₁, g₂, φ, hadd, hdraw, hnames, hcopied⟩ := copyPart_spec hs h hk
    descendants_nodup (fun x hx => contains_of_mem_descendants hx)
    (fun x hx y hy => hs.mem_descendants hx hy) hroom
  exact ⟨g₂, φ, absorb_eq_ok hself hadd hdraw (by rw [hnames, if_pos hself]), hcopied⟩

namespace Copied

variable {part : List NodeId}

theorem inj (hc : Copied source g g' part φ) (hx : x ∈ part) (hy : y ∈ part) (h : φ x = φ y) :
    x = y :=
  inj_of_ids hc.wellFormed hc.ids hx hy h

theorem not_contains (hc : Copied source g g' part φ) (h : g.WellFormed) (hx : x ∈ part) :
    g.contains (φ x) = false :=
  not_contains_of_ids hc.wellFormed hc.ids h hx

theorem contains_iff (hc : Copied source g g' part φ) (h : g.WellFormed) :
    g'.contains y = true ↔ g.contains y = true ∨ ∃ x ∈ part, φ x = y := by
  rw [← hc.wellFormed.mem_ids, hc.ids, List.mem_append, h.mem_ids, List.mem_map]

/-- The inputs of a copy are the copies of the inputs that were copied. -/
theorem mem_predecessors (hc : Copied source g g' part φ) (hx : x ∈ part) :
    a ∈ g'.predecessors (φ x) ↔ ∃ z ∈ part, φ z = a ∧ x ∈ source.successors z := by
  rw [hc.predecessors x hx]
  simp only [List.mem_map, List.mem_filter, decide_eq_true_eq]
  constructor
  · rintro ⟨z, ⟨hz, hxz⟩, rfl⟩
    exact ⟨z, hz, rfl, hxz⟩
  · rintro ⟨z, hz, rfl, hxz⟩
    exact ⟨z, ⟨hz, hxz⟩, rfl⟩

theorem acyclic (hc : Copied source g g' part φ) (h : g.WellFormed)
    (hclosed : ∀ x ∈ part, ∀ y ∈ source.successors x, y ∈ part) (hs : source.Acyclic)
    (hg : g.Acyclic) : g'.Acyclic := by
  obtain ⟨rs, hrs⟩ := hs
  obtain ⟨rg, hrg⟩ := hg
  let rank : NodeId → Nat := fun y => ((part.find? fun x => φ x = y).map rs).getD (rg y)
  have hnew : ∀ x ∈ part, rank (φ x) = rs x := fun x hx => by
    obtain ⟨z, hz⟩ : ∃ z, part.find? (fun z => φ z = φ x) = some z :=
      Option.isSome_iff_exists.mp (List.find?_isSome.mpr ⟨x, hx, by simp⟩)
    obtain rfl := hc.inj (List.mem_of_find?_eq_some hz) hx (by simpa using List.find?_some hz)
    simp only [rank, hz, Option.map_some, Option.getD_some]
  have hold : ∀ y, g.contains y = true → rank y = rg y := fun y hy => by
    have hz : part.find? (fun z => φ z = y) = none := by
      rw [List.find?_eq_none]
      intro z hz hzy
      obtain rfl : φ z = y := by simpa using hzy
      simp [hc.not_contains h hz] at hy
    simp only [rank, hz, Option.map_none, Option.getD_none]
  refine ⟨rank, fun a b hb => ?_⟩
  rcases (hc.contains_iff h).mp (contains_of_mem_successors hb) with ha | ⟨x, hx, rfl⟩
  · rw [hc.old_successors a ha] at hb
    rw [hold a ha, hold b (h.target hb)]
    exact hrg a b hb
  · rw [hc.successors x hx] at hb
    obtain ⟨y, hy, rfl⟩ := List.mem_map.mp hb
    rw [hnew x hx, hnew y (hclosed x hx y hy)]
    exact hrs x y hy

/-- A copy of a copy. Its inputs are in the order in which a walk from the root visits the original,
since that is the order of the walk in the first copy. -/
theorem again {middle : Graph α} {ψ : NodeId → NodeId} (hs : source.WellFormed)
    (hroot : source.contains root = true)
    (hcontent : ∀ x ∈ source.descendants root, middle.content? (φ x) = source.content? x)
    (hsuc : ∀ x ∈ source.descendants root, middle.successors (φ x) = (source.successors x).map φ)
    (hinj : ∀ x ∈ source.descendants root, ∀ y ∈ source.descendants root, φ x = φ y → x = y)
    (hc : Copied middle empty g' (middle.descendants (φ root)) ψ) :
    Copied source empty g' (source.descendants root) (ψ ∘ φ) := by
  have hcontains : ∀ x ∈ source.descendants root, middle.contains (φ x) = true := fun x hx => by
    rw [← content?_isSome, hcontent x hx, content?_isSome]
    exact contains_of_mem_descendants hx
  have hpart : middle.descendants (φ root) = (source.descendants root).map φ :=
    hs.descendants_renamed hroot hcontains hsuc hinj
  have hmem : ∀ x ∈ source.descendants root, φ x ∈ middle.descendants (φ root) := fun x hx =>
    hpart ▸ List.mem_map_of_mem hx
  refine ⟨hc.wellFormed, hc.keysBelow, ?_, ?_, fun x hx => ?_, fun x hx => ?_, fun x hx => ?_,
    hc.old_content?, hc.old_successors, hc.old_predecessors⟩
  · rw [hc.nextKey, hpart, List.length_map]
  · rw [hc.ids, hpart, List.map_map]
  · exact (hc.content? _ (hmem x hx)).trans (hcontent x hx)
  · rw [Function.comp_apply, hc.successors _ (hmem x hx), hsuc x hx, List.map_map]
  · rw [Function.comp_apply, hc.predecessors _ (hmem x hx), hpart, List.filter_map, List.map_map]
    congr 1
    refine List.filter_congr fun z hz => ?_
    rw [Function.comp_apply, hsuc z hz, decide_eq_decide]
    refine ⟨fun h => ?_, List.mem_map_of_mem⟩
    obtain ⟨y, hy, heq⟩ := List.mem_map.mp h
    exact hinj y (hs.mem_descendants hz hy) x hx heq ▸ hy

end Copied

/-- There are no more nodes than keys below the next one. -/
theorem length_ids_le (h : g.WellFormed) (hk : g.KeysBelow) :
    g.ids.length ≤ g.nextKey.toNat := by
  have hn : (g.ids.map fun id => id.val.toNat).Nodup :=
    (List.nodup_map_iff fun _ _ => NodeId.eq_of_toNat).mpr h.ids_nodup
  have hsub : (g.ids.map fun id => id.val.toNat) ⊆ List.range g.nextKey.toNat := by
    intro n hmem
    obtain ⟨id, hid, rfl⟩ := List.mem_map.mp hmem
    exact List.mem_range.mpr (hk id hid)
  simpa using (List.subperm_of_subset hn hsub).length_le

theorem WellFormed.length_descendants_le (h : g.WellFormed) (root : NodeId) :
    (g.descendants root).length ≤ g.ids.length :=
  (List.subperm_of_subset descendants_nodup fun x hx =>
    (h.mem_ids x).mpr (contains_of_mem_descendants hx)).length_le

theorem KeysBelow.empty : (Graph.empty : Graph α).KeysBelow := by
  intro id hid
  simp [Graph.empty] at hid

theorem Acyclic.empty : (Graph.empty : Graph α).Acyclic :=
  ⟨fun _ => 0, fun a b hb => by simp [Graph.empty, Graph.successors] at hb⟩

end Dataflow.Graph

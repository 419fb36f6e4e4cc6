import Dataflow.Graph.Isomorphism
import Dataflow.Proofs.Graph.Order
import Dataflow.Proofs.Graph.Reach
import Mathlib.Data.List.Sort
import Mathlib.Data.Set.Function

/-!
# Isomorphisms of graphs

An isomorphism renames the nodes of one graph to those of another, one for one; what it keeps is the
contents, up to a relation, and both edge lists of every node in their order. `isIsomorphic`
searches for one, and on a graph without cycles it finds one whenever there is one
(`isIsomorphic_iff`).

A pairing that the search arrives at is described by `Fits`: paired nodes are alike, and their
outputs are paired or still on the stack. It becomes an isomorphism when every node is paired and
the inputs agree. For the other direction the search is led along a given isomorphism: no pair of
the isomorphism clashes with another (`extendPairing_along`), and every node lies behind a source.
-/

namespace Dataflow.Graph

variable {α β : Type} {g : Graph α} {h : Graph β} {φ : NodeId → NodeId} {a b x y : NodeId}

/-- `φ` renames the nodes of `g` to the nodes of `h`: contents are related by `R`, and the edge
lists of a node become those of its image, slot by slot. -/
structure Isomorphism (R : α → β → Prop) (g : Graph α) (h : Graph β) (φ : NodeId → NodeId) :
    Prop where
  bijective : Set.BijOn φ {x | g.contains x = true} {y | h.contains y = true}
  content : ∀ x c, g.content? x = some c → ∃ d, h.content? (φ x) = some d ∧ R c d
  successors : ∀ x, g.contains x = true → h.successors (φ x) = (g.successors x).map φ
  predecessors : ∀ x, g.contains x = true → h.predecessors (φ x) = (g.predecessors x).map φ

namespace Isomorphism

variable {R : α → β → Prop}

theorem inj (hφ : Isomorphism R g h φ) (hx : g.contains x = true) (hy : g.contains y = true)
    (heq : φ x = φ y) : x = y :=
  hφ.bijective.injOn hx hy heq

theorem contains (hφ : Isomorphism R g h φ) (hx : g.contains x = true) :
    h.contains (φ x) = true :=
  hφ.bijective.mapsTo hx

theorem exists_of_contains (hφ : Isomorphism R g h φ) (hy : h.contains y = true) :
    ∃ x, g.contains x = true ∧ φ x = y :=
  hφ.bijective.surjOn hy

/-- The keys of one graph are, renamed, those of the other. -/
theorem perm_ids (hφ : Isomorphism R g h φ) (hg : g.WellFormed) (hh : h.WellFormed) :
    (g.ids.map φ).Perm h.ids := by
  have hnodup : (g.ids.map φ).Nodup := List.Nodup.map_on
    (fun x hx y hy heq => hφ.inj (hg.contains_of_mem hx) (hg.contains_of_mem hy) heq) hg.ids_nodup
  refine (List.perm_ext_iff_of_nodup hnodup hh.ids_nodup).mpr fun y => ?_
  rw [List.mem_map, hh.mem_ids]
  constructor
  · rintro ⟨x, hx, rfl⟩
    exact hφ.contains (hg.contains_of_mem hx)
  · intro hy
    obtain ⟨x, hx, rfl⟩ := hφ.exists_of_contains hy
    exact ⟨x, (hg.mem_ids x).mpr hx, rfl⟩

theorem size_eq (hφ : Isomorphism R g h φ) (hg : g.WellFormed) (hh : h.WellFormed) :
    g.size = h.size := by
  rw [hg.size_eq, hh.size_eq, ← (hφ.perm_ids hg hh).length_eq, List.length_map]

/-- A node is a source if and only if its image is one. -/
theorem perm_sources (hφ : Isomorphism R g h φ) (hg : g.WellFormed) (hh : h.WellFormed) :
    (g.sources.map φ).Perm h.sources := by
  have hfilter : g.sources = g.ids.filter fun x => (h.predecessors (φ x)).isEmpty := by
    refine List.filter_congr fun x hx => ?_
    rw [hφ.predecessors x (hg.contains_of_mem hx), List.isEmpty_map]
  rw [hfilter]
  have hmap := List.filter_map (f := φ) (p := fun y => (h.predecessors y).isEmpty) (l := g.ids)
  exact (List.Perm.of_eq hmap.symm).trans ((hφ.perm_ids hg hh).filter _)

/-- An isomorphism can be turned round. -/
theorem exists_symm (hφ : Isomorphism R g h φ) (hg : g.WellFormed) :
    ∃ ψ, Isomorphism (fun d c => R c d) h g ψ ∧ ∀ x, g.contains x = true → ψ (φ x) = x := by
  let ψ : NodeId → NodeId := Function.invFunOn φ {x | g.contains x = true}
  have hback : ∀ x, g.contains x = true → ψ (φ x) = x := fun x hx =>
    hφ.bijective.injOn.leftInvOn_invFunOn hx
  refine ⟨ψ, ⟨⟨?_, ?_, ?_⟩, fun y d hd => ?_, fun y hy => ?_, fun y hy => ?_⟩, hback⟩
  · intro y hy
    obtain ⟨x, hx, rfl⟩ := hφ.exists_of_contains hy
    show g.contains (ψ (φ x)) = true
    rw [hback x hx, hx]
  · intro y hy z hz heq
    obtain ⟨x, hx, rfl⟩ := hφ.exists_of_contains hy
    obtain ⟨w, hw, rfl⟩ := hφ.exists_of_contains hz
    rw [hback x hx, hback w hw] at heq
    rw [heq]
  · intro x hx
    exact ⟨φ x, hφ.contains hx, hback x hx⟩
  · obtain ⟨x, hx, rfl⟩ := hφ.exists_of_contains (contains_of_content? hd)
    obtain ⟨c, hc⟩ := exists_content? hx
    obtain ⟨d', hd', hR⟩ := hφ.content x c hc
    obtain rfl := Option.some.inj (hd.symm.trans hd')
    exact ⟨c, by rw [hback x hx, hc], hR⟩
  · obtain ⟨x, hx, rfl⟩ := hφ.exists_of_contains hy
    rw [hback x hx, hφ.successors x hx, List.map_map]
    exact (List.map_id _).symm.trans
      (List.map_congr_left fun z hz => (hback z (hg.target hz)).symm)
  · obtain ⟨x, hx, rfl⟩ := hφ.exists_of_contains hy
    rw [hback x hx, hφ.predecessors x hx, List.map_map]
    exact (List.map_id _).symm.trans
      (List.map_congr_left fun z hz => (hback z (hg.source hz)).symm)

end Isomorphism

/-! ## Pairings -/

namespace Pairing

variable {m : Pairing}

/-- The keys of the second graph that are paired. -/
def rights (m : Pairing) : List NodeId := m.map Prod.snd

theorem forward?_eq_none : m.forward? a = none ↔ a ∉ m.lefts := by
  simp only [forward?, Option.map_eq_none_iff, List.find?_eq_none, beq_iff_eq, lefts, List.mem_map,
    not_exists, not_and]

theorem backward?_eq_none : m.backward? b = none ↔ b ∉ m.rights := by
  simp only [backward?, Option.map_eq_none_iff, List.find?_eq_none, beq_iff_eq, rights,
    List.mem_map, not_exists, not_and]

theorem mem_of_forward? (h : m.forward? a = some b) : (a, b) ∈ m := by
  obtain ⟨p, hp, rfl⟩ := Option.map_eq_some_iff.mp h
  obtain rfl : p.1 = a := by simpa using List.find?_some hp
  exact List.mem_of_find?_eq_some hp

theorem mem_of_backward? (h : m.backward? b = some a) : (a, b) ∈ m := by
  obtain ⟨p, hp, rfl⟩ := Option.map_eq_some_iff.mp h
  obtain rfl : p.2 = b := by simpa using List.find?_some hp
  exact List.mem_of_find?_eq_some hp

/-- The partner of a node is the one that it is paired with. -/
theorem forward?_of_mem (hn : m.lefts.Nodup) (h : (a, b) ∈ m) : m.forward? a = some b := by
  cases hf : m.forward? a with
  | none => exact absurd (List.mem_map_of_mem h) (forward?_eq_none.mp hf)
  | some b' =>
    have heq := List.inj_on_of_nodup_map hn (mem_of_forward? hf) h rfl
    exact congrArg some (Prod.mk.inj heq).2

/-- The renaming that a pairing stands for. -/
def rename (m : Pairing) (x : NodeId) : NodeId := (m.forward? x).getD default

theorem rename_of_mem (hn : m.lefts.Nodup) (h : (a, b) ∈ m) : m.rename a = b := by
  rw [rename, forward?_of_mem hn h, Option.getD_some]

theorem map_rename {as bs : List NodeId} (h : as.map m.forward? = bs.map some) :
    bs = as.map m.rename := by
  have h' := congrArg (List.map fun o : Option NodeId => o.getD default) h
  simp only [List.map_map, Function.comp_def, Option.getD_some, List.map_id'] at h'
  exact h'.symm

end Pairing

/-- Paired nodes are related by `R`, and so far as their outputs are not paired they are still to
be. -/
structure Fits (R : NodeId → NodeId → Prop) (g : Graph α) (h : Graph β)
    (stack : List (NodeId × NodeId)) (m : Pairing) : Prop where
  lefts_nodup : m.lefts.Nodup
  rights_nodup : m.rights.Nodup
  related : ∀ a b, (a, b) ∈ m → R a b
  outputs : ∀ a b, (a, b) ∈ m → ∀ p ∈ (g.successors a).zip (h.successors b), p ∈ m ∨ p ∈ stack

namespace Fits

variable {R : NodeId → NodeId → Prop} {stack rest new : List (NodeId × NodeId)} {m : Pairing}

theorem nil : Fits R g h stack [] :=
  ⟨List.nodup_nil, List.nodup_nil, by simp, by simp⟩

/-- What is still to be paired may become more. -/
theorem begin (hf : Fits R g h [] m) (stack : List (NodeId × NodeId)) : Fits R g h stack m :=
  ⟨hf.lefts_nodup, hf.rights_nodup, hf.related, fun x y hxy p hp =>
    .inl ((hf.outputs x y hxy p hp).resolve_right List.not_mem_nil)⟩

/-- A pair that is known already may be taken off the stack. -/
theorem skip (hf : Fits R g h ((a, b) :: rest) m) (hmem : (a, b) ∈ m) : Fits R g h rest m := by
  refine ⟨hf.lefts_nodup, hf.rights_nodup, hf.related, fun x y hxy p hp => ?_⟩
  rcases hf.outputs x y hxy p hp with h | h
  · exact .inl h
  · rcases List.mem_cons.mp h with rfl | h
    · exact .inl hmem
    · exact .inr h

/-- Two nodes without partners are paired, and their outputs are put on the stack. -/
theorem pair (hf : Fits R g h ((a, b) :: rest) m) (ha : m.forward? a = none)
    (hb : m.backward? b = none) (hab : R a b)
    (hnew : (g.successors a).zip (h.successors b) ⊆ new) :
    Fits R g h (new ++ rest) ((a, b) :: m) := by
  refine ⟨List.nodup_cons.mpr ⟨Pairing.forward?_eq_none.mp ha, hf.lefts_nodup⟩,
    List.nodup_cons.mpr ⟨Pairing.backward?_eq_none.mp hb, hf.rights_nodup⟩, fun x y hxy => ?_,
    fun x y hxy p hp => ?_⟩
  · rcases List.mem_cons.mp hxy with heq | hxy
    · obtain ⟨rfl, rfl⟩ := Prod.mk.inj heq
      exact hab
    · exact hf.related x y hxy
  · rcases List.mem_cons.mp hxy with heq | hxy
    · obtain ⟨rfl, rfl⟩ := Prod.mk.inj heq
      exact .inr (List.mem_append_left rest (hnew hp))
    · rcases hf.outputs x y hxy p hp with h | h
      · exact .inl (by simp [h])
      · rcases List.mem_cons.mp h with rfl | h
        · exact .inl (by simp)
        · exact .inr (by simp [h])

/-- The outputs of a node that is done are paired slot by slot. -/
theorem rename_successors (hf : Fits R g h [] m) (hab : (a, b) ∈ m) {i : Nat}
    (hx : (g.successors a)[i]? = some x) (hy : (h.successors b)[i]? = some y) :
    m.rename x = y := by
  have hzip : (x, y) ∈ (g.successors a).zip (h.successors b) :=
    List.mem_iff_getElem?.mpr ⟨i, List.getElem?_zip_eq_some.mpr ⟨hx, hy⟩⟩
  have hmem := (hf.outputs a b hab (x, y) hzip).resolve_right List.not_mem_nil
  exact Pairing.rename_of_mem hf.lefts_nodup hmem

/-- Different nodes are renamed to different ones. -/
theorem rename_inj (hf : Fits R g h stack m) (ha : (a, m.rename a) ∈ m) (hx : (x, m.rename x) ∈ m)
    (heq : m.rename a = m.rename x) : a = x :=
  (Prod.mk.inj (List.inj_on_of_nodup_map hf.rights_nodup ha hx heq)).1

end Fits

/-- The nodes hold related contents and have as many outputs and inputs as each other. -/
def Alike (same : α → α → Bool) (g h : Graph α) (a b : NodeId) : Prop :=
  ∃ c d, g.content? a = some c ∧ h.content? b = some d ∧ same c d = true ∧
    (g.successors a).length = (h.successors b).length ∧
    (g.predecessors a).length = (h.predecessors b).length

section Search

variable {same : α → α → Bool} {g h : Graph α} {stack : List (NodeId × NodeId)} {m m' : Pairing}

/-- What the nodes of a pair hold is known from the views. -/
theorem alike_iff {v w : Vertex α} (hv : g.vertices[a]? = some v) (hw : h.vertices[b]? = some w) :
    Vertex.alike same v w = true ↔ Alike same g h a b := by
  obtain ⟨hc, hs, hp⟩ := getElem?_vertices.mp hv
  obtain ⟨hd, hs', hp'⟩ := getElem?_vertices.mp hw
  simp [Alike, Vertex.alike, hc, hd, hs, hs', hp, hp', and_assoc]

/-! ## The search

The equations of `extendPairing`, by what is known of the first pair on the stack. -/

theorem extendPairing_known {rest : List (NodeId × NodeId)} (ha : m.forward? a = some b) :
    extendPairing same g h ((a, b) :: rest) m = extendPairing same g h rest m := by
  rw [extendPairing]
  split <;> simp_all

theorem extendPairing_clash {rest : List (NodeId × NodeId)} {b' : NodeId}
    (ha : m.forward? a = some b') (hne : b' ≠ b) :
    extendPairing same g h ((a, b) :: rest) m = none := by
  rw [extendPairing]
  split <;> simp_all

theorem extendPairing_taken {rest : List (NodeId × NodeId)} (ha : m.forward? a = none)
    (hb : m.backward? b ≠ none) : extendPairing same g h ((a, b) :: rest) m = none := by
  rw [extendPairing]
  split <;> simp_all

theorem extendPairing_new {rest : List (NodeId × NodeId)} {v w : Vertex α}
    (ha : m.forward? a = none) (hb : m.backward? b = none) (hv : g.vertices[a]? = some v)
    (hw : h.vertices[b]? = some w) : extendPairing same g h ((a, b) :: rest) m =
      if Vertex.alike same v w then
        extendPairing same g h ((v.outs.zip w.outs).reverse ++ rest) ((a, b) :: m)
      else none := by
  rw [extendPairing]
  split
  · simp_all
  · simp_all
  · split
    · rename_i v' w' hv' hw'
      obtain rfl : v = v' := Option.some.inj (hv.symm.trans hv')
      obtain rfl : w = w' := Option.some.inj (hw.symm.trans hw')
      rfl
    · rename_i hnone
      exact absurd hw (hnone v w hv)

theorem extendPairing_missing {rest : List (NodeId × NodeId)} (ha : m.forward? a = none)
    (hb : m.backward? b = none)
    (hnone : ∀ v w, g.vertices[a]? = some v → h.vertices[b]? = some w → False) :
    extendPairing same g h ((a, b) :: rest) m = none := by
  rw [extendPairing]
  split
  · simp_all
  · simp_all
  · split
    · rename_i v w hv hw
      exact (hnone v w hv hw).elim
    · rfl

/-- Whatever is put on the stack is taken off again. -/
theorem extendPairing_fits (hf : Fits (Alike same g h) g h stack m)
    (hrun : extendPairing same g h stack m = some m') : Fits (Alike same g h) g h [] m' := by
  induction stack, m using extendPairing.induct same g h with
  | case1 m =>
    rw [extendPairing] at hrun
    obtain rfl := Option.some.inj hrun
    exact hf
  | case2 m a rest b ha ih =>
    rw [extendPairing_known ha] at hrun
    exact ih (hf.skip (Pairing.mem_of_forward? ha)) hrun
  | case3 m a b rest b' ha hne => simp [extendPairing_clash ha hne] at hrun
  | case4 m a b rest a' ha hb =>
    have htaken : m.backward? b ≠ none := by simp [hb]
    simp [extendPairing_taken ha htaken] at hrun
  | case5 m a b rest ha hb v w hv hw halike ih =>
    rw [extendPairing_new ha hb hv hw, if_pos halike] at hrun
    refine ih (hf.pair ha hb ((alike_iff hv hw).mp halike) fun p hp => ?_) hrun
    rw [successors_of_getElem? hv, successors_of_getElem? hw] at hp
    exact List.mem_reverse.mpr hp
  | case6 m a b rest ha hb v w hv hw hunlike =>
    simp [extendPairing_new ha hb hv hw, hunlike] at hrun
  | case7 m a b rest ha hb hnone => simp [extendPairing_missing ha hb hnone] at hrun

theorem inputsAgree_iff : inputsAgree g h m = true ↔ m.length = g.size ∧
    ∀ a b, (a, b) ∈ m → (g.predecessors a).map m.forward? = (h.predecessors b).map some := by
  simp [inputsAgree]

/-- A pairing of all nodes with agreeing inputs is an isomorphism. -/
theorem Fits.isomorphism (hf : Fits (Alike same g h) g h [] m) (hg : g.WellFormed)
    (hh : h.WellFormed) (hsize : g.size = h.size) (hagree : inputsAgree g h m = true) :
    Isomorphism (fun c d => same c d = true) g h m.rename := by
  obtain ⟨hlen, hinputs⟩ := inputsAgree_iff.mp hagree
  have hleft : ∀ a, a ∈ m.lefts ↔ g.contains a = true := by
    have hsub : m.lefts ⊆ g.ids := fun a ha => by
      obtain ⟨⟨a, b⟩, hab, rfl⟩ := List.mem_map.mp ha
      obtain ⟨c, -, hc, -⟩ := hf.related a b hab
      exact (hg.mem_ids a).mpr (contains_of_content? hc)
    have hperm := (List.subperm_of_subset hf.lefts_nodup hsub).perm_of_length_le
      (by rw [← hg.size_eq, ← hlen, Pairing.lefts, List.length_map])
    exact fun a => by rw [hperm.mem_iff, hg.mem_ids]
  have hright : ∀ b, b ∈ m.rights ↔ h.contains b = true := by
    have hsub : m.rights ⊆ h.ids := fun b hb => by
      obtain ⟨⟨a, b⟩, hab, rfl⟩ := List.mem_map.mp hb
      obtain ⟨-, d, -, hd, -⟩ := hf.related a b hab
      exact (hh.mem_ids b).mpr (contains_of_content? hd)
    have hperm := (List.subperm_of_subset hf.rights_nodup hsub).perm_of_length_le
      (by rw [← hh.size_eq, ← hsize, ← hlen, Pairing.rights, List.length_map])
    exact fun b => by rw [hperm.mem_iff, hh.mem_ids]
  have hpaired : ∀ a, g.contains a = true → (a, m.rename a) ∈ m := fun a ha => by
    obtain ⟨⟨a, b⟩, hab, rfl⟩ := List.mem_map.mp ((hleft a).mpr ha)
    rwa [Pairing.rename_of_mem hf.lefts_nodup hab]
  refine ⟨⟨fun a ha => ?_, fun a ha b hb heq => ?_, fun b hb => ?_⟩, fun a c hc => ?_,
    fun a ha => ?_, fun a ha => ?_⟩
  · exact (hright _).mp (List.mem_map_of_mem (hpaired a ha))
  · exact hf.rename_inj (hpaired a ha) (hpaired b hb) heq
  · obtain ⟨⟨a, b⟩, hab, rfl⟩ := List.mem_map.mp ((hright b).mpr hb)
    obtain ⟨c, -, hc, -⟩ := hf.related a b hab
    exact ⟨a, contains_of_content? hc, Pairing.rename_of_mem hf.lefts_nodup hab⟩
  · obtain ⟨c', d, hc', hd, hsame, -⟩ := hf.related a _ (hpaired a (contains_of_content? hc))
    obtain rfl : c = c' := Option.some.inj (hc.symm.trans hc')
    exact ⟨d, hd, hsame⟩
  · obtain ⟨-, -, -, -, -, hlen, -⟩ := hf.related a _ (hpaired a ha)
    refine (List.ext_getElem (by simpa using hlen) fun i hi hi' => ?_).symm
    have hi : i < (g.successors a).length := by simpa using hi
    have hi' : i < (h.successors (m.rename a)).length := hi'
    rw [List.getElem_map]
    exact hf.rename_successors (hpaired a ha) (List.getElem?_eq_getElem hi)
      (List.getElem?_eq_getElem hi')
  · exact Pairing.map_rename (hinputs a _ (hpaired a ha))

/-- What the search finds is an isomorphism. -/
theorem pairSources_sound (hg : g.WellFormed) (hh : h.WellFormed) (hsize : g.size = h.size) :
    ∀ {as bs : List NodeId} {m : Pairing}, Fits (Alike same g h) g h [] m →
      pairSources same g h as bs m = true →
      ∃ φ, Isomorphism (fun c d => same c d = true) g h φ
  | [], _, m, hf, hrun => ⟨m.rename, hf.isomorphism hg hh hsize hrun⟩
  | a :: as, bs, m, hf, hrun => by
    obtain ⟨⟨b, others⟩, -, hrun⟩ := List.any_eq_true.mp hrun
    dsimp only at hrun
    split at hrun
    · rename_i m' hm'
      exact pairSources_sound hg hh hsize (extendPairing_fits (hf.begin _) hm') hrun
    · exact absurd hrun (by simp)

/-! ## The search along an isomorphism -/

/-- Every listed pair is a node and its image. -/
def Along (φ : NodeId → NodeId) (g : Graph α) (m : List (NodeId × NodeId)) : Prop :=
  ∀ a b, (a, b) ∈ m → g.contains a = true ∧ φ a = b

namespace Along

theorem nil : Along φ g [] := fun _ _ hab => absurd hab List.not_mem_nil

theorem cons (ha : g.contains a = true) (hm : Along φ g m) : Along φ g ((a, φ a) :: m) := by
  intro x y hxy
  rcases List.mem_cons.mp hxy with heq | hxy
  · obtain ⟨rfl, rfl⟩ := Prod.mk.inj heq
    exact ⟨ha, rfl⟩
  · exact hm x y hxy

theorem tail {rest : List (NodeId × NodeId)} (hm : Along φ g ((a, b) :: rest)) : Along φ g rest :=
  fun x y hxy => hm x y (List.mem_cons_of_mem _ hxy)

theorem append {m₁ m₂ : List (NodeId × NodeId)} (h₁ : Along φ g m₁) (h₂ : Along φ g m₂) :
    Along φ g (m₁ ++ m₂) :=
  fun x y hxy => (List.mem_append.mp hxy).elim (h₁ x y) (h₂ x y)

/-- The targets of the edges out of a node, slot by slot beside their images. -/
theorem zip {as bs : List NodeId} (has : ∀ x ∈ as, g.contains x = true)
    (hbs : ∀ (i : Nat) (x : NodeId), as[i]? = some x → bs[i]? = some (φ x)) :
    Along φ g (as.zip bs) := by
  intro x y hxy
  obtain ⟨i, hi⟩ := List.mem_iff_getElem?.mp hxy
  obtain ⟨hx, hy⟩ := List.getElem?_zip_eq_some.mp hi
  rw [hbs i x hx] at hy
  exact ⟨has x (List.mem_of_getElem? hx), Option.some.inj hy⟩

/-- No pair takes the image of a node that has no partner. -/
theorem backward?_eq_none (hm : Along φ g m) (hinj : Set.InjOn φ {x | g.contains x = true})
    (hca : g.contains a = true) (ha : m.forward? a = none) : m.backward? (φ a) = none := by
  cases hb : m.backward? (φ a) with
  | none => rfl
  | some a' =>
    have hmem := Pairing.mem_of_backward? hb
    obtain ⟨hca', heq⟩ := hm a' (φ a) hmem
    obtain rfl := hinj hca' hca heq
    exact absurd (List.mem_map_of_mem hmem) (Pairing.forward?_eq_none.mp ha)

end Along

variable (hφ : Isomorphism (fun c d => same c d = true) g h φ)

include hφ

/-- A node and its image hold alike vertices. -/
theorem Isomorphism.alike (ha : g.contains a = true) : ∃ v w, g.vertices[a]? = some v ∧
    h.vertices[φ a]? = some w ∧ Vertex.alike same v w = true := by
  obtain ⟨v, hv⟩ := exists_vertex ha
  obtain ⟨w, hw⟩ := exists_vertex (hφ.contains ha)
  obtain ⟨c, hc⟩ := exists_content? ha
  obtain ⟨d, hd, hsame⟩ := hφ.content a c hc
  refine ⟨v, w, hv, hw, (alike_iff hv hw).mpr ⟨c, d, hc, hd, hsame, ?_, ?_⟩⟩
  · rw [hφ.successors a ha, List.length_map]
  · rw [hφ.predecessors a ha, List.length_map]

/-- Pairs of an isomorphism do not clash: what is stacked gets paired. -/
theorem extendPairing_along (hg : g.WellFormed) (hstack : Along φ g stack) (hm : Along φ g m) :
    ∃ m', extendPairing same g h stack m = some m' ∧ Along φ g m' ∧ m ⊆ m' ∧ stack ⊆ m' := by
  induction stack, m using extendPairing.induct same g h with
  | case1 m => exact ⟨m, by rw [extendPairing], hm, List.Subset.refl m, List.nil_subset m⟩
  | case2 m a rest b ha ih =>
    obtain ⟨m', hrun, hm', hsub, hrest⟩ := ih hstack.tail hm
    refine ⟨m', by rw [extendPairing_known ha, hrun], hm', hsub, ?_⟩
    exact List.cons_subset.mpr ⟨hsub (Pairing.mem_of_forward? ha), hrest⟩
  | case3 m a b rest b' ha hne =>
    obtain ⟨-, rfl⟩ := hstack a b (by simp)
    obtain ⟨-, rfl⟩ := hm a b' (Pairing.mem_of_forward? ha)
    exact absurd rfl hne
  | case4 m a b rest a' ha hb =>
    obtain ⟨hca, rfl⟩ := hstack a b (by simp)
    rw [hm.backward?_eq_none hφ.bijective.injOn hca ha] at hb
    cases hb
  | case5 m a b rest ha hb v w hv hw halike ih =>
    obtain ⟨hca, rfl⟩ := hstack a b (by simp)
    have houts : Along φ g (v.outs.zip w.outs) := by
      rw [← successors_of_getElem? hv, ← successors_of_getElem? hw, hφ.successors a hca]
      exact Along.zip (fun x hx => hg.target hx) fun i x hx => by rw [List.getElem?_map, hx]; rfl
    have hreverse : Along φ g (v.outs.zip w.outs).reverse :=
      fun x y hxy => houts x y (List.mem_reverse.mp hxy)
    obtain ⟨m', hrun, hm', hsub, hrest⟩ := ih (hreverse.append hstack.tail) (hm.cons hca)
    refine ⟨m', ?_, hm', (List.cons_subset.mp hsub).2, List.cons_subset.mpr
      ⟨(List.cons_subset.mp hsub).1, (List.append_subset.mp hrest).2⟩⟩
    rw [extendPairing_new ha hb hv hw, if_pos halike, hrun]
  | case6 m a b rest ha hb v w hv hw hunlike =>
    obtain ⟨hca, rfl⟩ := hstack a b (by simp)
    obtain ⟨v', w', hv', hw', halike⟩ := hφ.alike hca
    obtain rfl : v = v' := Option.some.inj (hv.symm.trans hv')
    obtain rfl : w = w' := Option.some.inj (hw.symm.trans hw')
    exact absurd halike hunlike
  | case7 m a b rest ha hb hnone =>
    obtain ⟨hca, rfl⟩ := hstack a b (by simp)
    obtain ⟨v, w, hv, hw, -⟩ := hφ.alike hca
    exact (hnone v w hv hw).elim

/-- If the sources are paired, then so is everything: every node lies behind a source. -/
theorem Fits.contains_paired (hf : Fits (Alike same g h) g h [] m) (hg : g.WellFormed)
    (hac : g.Acyclic) (hsources : ∀ a, g.contains a = true → g.predecessors a = [] →
      (a, φ a) ∈ m) : ∀ a, g.contains a = true → (a, φ a) ∈ m := by
  refine hac.inputs_first hg fun x hx hins => ?_
  cases hpre : g.predecessors x with
  | nil => exact hsources x hx hpre
  | cons y ys =>
    have hy : y ∈ g.predecessors x := by simp [hpre]
    have hout := (hg.edge y x).mpr hy
    have hmem := hf.outputs y _ (hins y hy) (x, φ x) (by
      rw [hφ.successors y (hg.source hy), ← List.map_prod_left_eq_zip]
      exact List.mem_map_of_mem hout)
    simpa using hmem

theorem Fits.inputsAgree (hf : Fits (Alike same g h) g h [] m) (hm : Along φ g m)
    (hg : g.WellFormed) (hall : ∀ a, g.contains a = true → (a, φ a) ∈ m) :
    inputsAgree g h m = true := by
  refine inputsAgree_iff.mpr ⟨?_, fun a b hab => ?_⟩
  · have hperm : m.lefts.Perm g.ids := by
      refine (List.perm_ext_iff_of_nodup hf.lefts_nodup hg.ids_nodup).mpr fun a => ?_
      rw [hg.mem_ids]
      refine ⟨fun ha => ?_, fun ha => List.mem_map_of_mem (hall a ha)⟩
      obtain ⟨⟨a, b⟩, hab, rfl⟩ := List.mem_map.mp ha
      exact (hm a b hab).1
    rw [hg.size_eq, ← hperm.length_eq, Pairing.lefts, List.length_map]
  · obtain ⟨ha, rfl⟩ := hm a b hab
    rw [hφ.predecessors a ha, List.map_map]
    exact List.map_congr_left fun y hy =>
      Pairing.forward?_of_mem hf.lefts_nodup (hall y (hg.source hy))

end Search

theorem exists_mem_picks {bs : List NodeId} (hb : b ∈ bs) :
    ∃ others, (b, others) ∈ picks bs ∧ ∀ c ∈ bs, c ≠ b → c ∈ others := by
  induction bs with
  | nil => exact absurd hb List.not_mem_nil
  | cons c bs ih =>
    by_cases hcb : c = b
    · subst hcb
      exact ⟨bs, by simp [picks], fun d hd hne => (List.mem_cons.mp hd).resolve_left hne⟩
    · obtain ⟨others, hmem, hrest⟩ := ih ((List.mem_cons.mp hb).resolve_left (Ne.symm hcb))
      refine ⟨c :: others, ?_, fun d hd hne => ?_⟩
      · exact List.mem_cons_of_mem _ (List.mem_map.mpr ⟨(b, others), hmem, rfl⟩)
      · rcases List.mem_cons.mp hd with rfl | hd
        · exact List.mem_cons_self
        · exact List.mem_cons_of_mem _ (hrest d hd hne)

/-- Whatever was paired before, some choice among the sources that are left goes along the
isomorphism. -/
theorem pairSources_complete {same : α → α → Bool} {g h : Graph α}
    (hφ : Isomorphism (fun c d => same c d = true) g h φ) (hg : g.WellFormed) (hac : g.Acyclic) :
    ∀ {as bs : List NodeId} {m : Pairing}, Fits (Alike same g h) g h [] m → Along φ g m →
      as.Nodup → (∀ a ∈ as, g.contains a = true ∧ φ a ∈ bs) →
      (∀ a, g.contains a = true → g.predecessors a = [] → a ∈ as ∨ (a, φ a) ∈ m) →
      pairSources same g h as bs m = true
  | [], _, m, hf, hm, _, _, hsources =>
    hf.inputsAgree hφ hm hg (hf.contains_paired hφ hg hac fun a ha hpre =>
      (hsources a ha hpre).resolve_left List.not_mem_nil)
  | a :: as, bs, m, hf, hm, hn, has, hsources => by
    obtain ⟨ha, hn⟩ := List.nodup_cons.mp hn
    obtain ⟨hca, hb⟩ := has a (by simp)
    obtain ⟨others, hpick, hothers⟩ := exists_mem_picks hb
    have hfirst : Along φ g [(a, φ a)] := Along.nil.cons hca
    obtain ⟨m', hrun, hm', hsub, hstart⟩ := extendPairing_along hφ hg hfirst hm
    have hf' : Fits (Alike same g h) g h [] m' := extendPairing_fits (hf.begin _) hrun
    refine List.any_eq_true.mpr ⟨(φ a, others), hpick, ?_⟩
    dsimp only
    rw [hrun]
    refine pairSources_complete hφ hg hac hf' hm' hn (fun x hx => ?_) fun x hx hpre => ?_
    · obtain ⟨hcx, hφx⟩ := has x (by simp [hx])
      refine ⟨hcx, hothers _ hφx fun heq => ha ?_⟩
      exact hφ.inj hcx hca heq ▸ hx
    · rcases hsources x hx hpre with hx | hx
      · rcases List.mem_cons.mp hx with rfl | hx
        · exact .inr (hstart (by simp))
        · exact .inl hx
      · exact .inr (hsub hx)

/-- Equality up to keys is decided by the search: it succeeds if and only if the nodes of the graphs
correspond one for one, with related contents and the same edge lists in the same order. -/
theorem isIsomorphic_iff {same : α → α → Bool} {g h : Graph α} (hg : g.WellFormed)
    (hh : h.WellFormed) (hac : g.Acyclic) : isIsomorphic same g h = true ↔
      ∃ φ, Isomorphism (fun c d => same c d = true) g h φ := by
  rw [isIsomorphic, Bool.and_eq_true, Bool.and_eq_true, beq_iff_eq, beq_iff_eq]
  constructor
  · rintro ⟨⟨hsize, -⟩, hrun⟩
    exact pairSources_sound hg hh hsize .nil hrun
  · rintro ⟨φ, hφ⟩
    have hsources := hφ.perm_sources hg hh
    refine ⟨⟨hφ.size_eq hg hh, by rw [← hsources.length_eq, List.length_map]⟩, ?_⟩
    refine pairSources_complete hφ hg hac .nil .nil (hg.ids_nodup.filter _)
      (fun a ha => ⟨hg.contains_of_mem (List.mem_of_mem_filter ha), ?_⟩) fun a ha hpre => .inl ?_
    · exact hsources.mem_iff.mp (List.mem_map_of_mem ha)
    · exact List.mem_filter.mpr ⟨(hg.mem_ids a).mpr ha, by simp [hpre]⟩

/-- Two equal scans feed a join. -/
def scans (first second : NodeId) : Graph String :=
  { vertices := (({} : Std.TreeMap NodeId (Vertex String)).insert ⟨0⟩ ⟨"scan", [⟨2⟩], []⟩)
      |>.insert ⟨1⟩ ⟨"scan", [⟨2⟩], []⟩ |>.insert ⟨2⟩ ⟨"join", [], [first, second]⟩
    ids := [⟨0⟩, ⟨1⟩, ⟨2⟩]
    nextKey := 3 }

/-- The first of the scans must not be paired with the first one, as the inputs show in the end. -/
theorem scans_isomorphic : (scans ⟨0⟩ ⟨1⟩).WellFormed ∧ (scans ⟨1⟩ ⟨0⟩).WellFormed ∧
    (scans ⟨0⟩ ⟨1⟩).Acyclic ∧
    ∃ φ, Isomorphism (fun c d => (c == d) = true) (scans ⟨0⟩ ⟨1⟩) (scans ⟨1⟩ ⟨0⟩) φ := by
  have hg : (scans ⟨0⟩ ⟨1⟩).WellFormed := by decide +kernel
  have hh : (scans ⟨1⟩ ⟨0⟩).WellFormed := by decide +kernel
  have hac : (scans ⟨0⟩ ⟨1⟩).Acyclic := by
    refine (exists_topologicalOrder_iff hg).mp ⟨[⟨0⟩, ⟨1⟩, ⟨2⟩], by decide +kernel⟩
  exact ⟨hg, hh, hac, (isIsomorphic_iff hg hh hac).mp (by decide +kernel)⟩

/-!
## Isomorphisms by position

The nodes of two graphs are listed. If what stands at the same place in the two lists is alike and
has inputs from the same places, then taking each node to the one at its place is an isomorphism
(`isomorphism_of_positions`), provided that the outputs of each node are in the order of the list.
-/

variable {as bs : List NodeId}

/-- The node in the second list at the place that a node has in the first. -/
def atPlace (as bs : List NodeId) (x : NodeId) : NodeId := (bs[as.idxOf x]?).getD default

section Places

variable (has : as.Nodup) (hbs : bs.Nodup) (hlen : as.length = bs.length)

include hlen

theorem atPlace_eq (hx : x ∈ as) :
    ∃ hi : as.idxOf x < bs.length, atPlace as bs x = bs[as.idxOf x] := by
  have hi : as.idxOf x < bs.length := hlen ▸ List.idxOf_lt_length_of_mem hx
  exact ⟨hi, by rw [atPlace, List.getElem?_eq_getElem hi, Option.getD_some]⟩

theorem atPlace_mem (hx : x ∈ as) : atPlace as bs x ∈ bs := by
  obtain ⟨hi, heq⟩ := atPlace_eq hlen hx
  rw [heq]
  exact List.getElem_mem hi

include hbs

theorem idxOf_atPlace (hx : x ∈ as) : bs.idxOf (atPlace as bs x) = as.idxOf x := by
  obtain ⟨hi, heq⟩ := atPlace_eq hlen hx
  rw [heq, hbs.idxOf_getElem]

theorem atPlace_inj (hx : x ∈ as) (hy : y ∈ as) (heq : atPlace as bs x = atPlace as bs y) :
    x = y := by
  have hidx := congrArg bs.idxOf heq
  rw [idxOf_atPlace hbs hlen hx, idxOf_atPlace hbs hlen hy] at hidx
  exact (List.idxOf_inj hx).mp hidx

omit hbs in
theorem exists_atPlace (has : as.Nodup) (hy : y ∈ bs) : ∃ x ∈ as, atPlace as bs x = y := by
  have hi : bs.idxOf y < as.length := hlen ▸ List.idxOf_lt_length_of_mem hy
  refine ⟨as[bs.idxOf y], List.getElem_mem hi, ?_⟩
  rw [atPlace, has.idxOf_getElem, List.getElem?_idxOf hy, Option.getD_some]

omit hbs hlen in
/-- Nodes at the same places are each other's images. -/
theorem map_atPlace {xs ys : List NodeId} (hys : ∀ y ∈ ys, y ∈ bs)
    (hplaces : xs.map as.idxOf = ys.map bs.idxOf) : ys = xs.map (atPlace as bs) := by
  have hxs : xs.map (atPlace as bs) = (xs.map as.idxOf).map fun i => (bs[i]?).getD default := by
    rw [List.map_map]
    rfl
  rw [hxs, hplaces, List.map_map]
  refine (List.map_id'' (fun y => rfl) ys).symm.trans (List.map_congr_left fun y hy => ?_)
  simp [List.getElem?_idxOf (hys y hy)]

end Places

/-- What stands at the same place is alike, and has its inputs from the same places. -/
structure SamePlace (R : α → β → Prop) (g : Graph α) (h : Graph β) (as bs : List NodeId)
    (a b : NodeId) : Prop where
  content : ∀ c, g.content? a = some c → ∃ d, h.content? b = some d ∧ R c d
  inputs : (g.predecessors a).map as.idxOf = (h.predecessors b).map bs.idxOf

/-- The outputs of every node stand in the order of the list. -/
def OutputsListed (g : Graph α) (as : List NodeId) : Prop :=
  ∀ x, ((g.successors x).map as.idxOf).Pairwise (· < ·)

theorem isomorphism_of_positions {R : α → β → Prop} (hg : g.WellFormed) (hh : h.WellFormed)
    (has : as.Nodup) (hbs : bs.Nodup) (hmem : ∀ x, x ∈ as ↔ g.contains x = true)
    (hmem' : ∀ y, y ∈ bs ↔ h.contains y = true)
    (hsame : List.Forall₂ (SamePlace R g h as bs) as bs) (hout : g.OutputsListed as)
    (hout' : h.OutputsListed bs) : Isomorphism R g h (atPlace as bs) := by
  have hlen := hsame.length_eq
  have hat : ∀ {x}, x ∈ as → SamePlace R g h as bs x (atPlace as bs x) := fun {x} hx => by
    obtain ⟨hi, heq⟩ := atPlace_eq hlen hx
    have hxi : as.idxOf x < as.length := List.idxOf_lt_length_of_mem hx
    have := hsame.get hxi hi
    simpa [heq] using this
  have hpre : ∀ {x}, x ∈ as → h.predecessors (atPlace as bs x) =
      (g.predecessors x).map (atPlace as bs) := fun {x} hx =>
    map_atPlace (fun y hy => (hmem' y).mpr (hh.source hy)) (hat hx).inputs
  have hin : ∀ {x}, g.contains x = true → x ∈ as := fun {x} => (hmem x).mpr
  refine ⟨⟨fun x hx => ?_, fun x hx y hy heq => ?_, fun y hy => ?_⟩, fun x c hc => ?_,
    fun x hx => ?_, fun x hx => hpre (hin hx)⟩
  · exact (hmem' _).mp (atPlace_mem hlen (hin hx))
  · exact atPlace_inj hbs hlen (hin hx) (hin hy) heq
  · obtain ⟨x, hx, heq⟩ := exists_atPlace hlen has ((hmem' y).mpr hy)
    exact ⟨x, (hmem x).mp hx, heq⟩
  · exact (hat (hin (contains_of_content? hc))).content c hc
  · refine map_atPlace (fun y hy => (hmem' y).mpr (hh.target hy)) ?_
    -- both lists of places ascend, and they have the same members
    refine (hout x).eq_of_mem_iff (hout' _) fun i => ?_
    have hedge : ∀ {y}, y ∈ as →
        (y ∈ g.successors x ↔ atPlace as bs y ∈ h.successors (atPlace as bs x)) := fun {y} hy => by
      rw [hg.edge, hh.edge, hpre hy]
      refine ⟨List.mem_map_of_mem, fun hmap => ?_⟩
      obtain ⟨z, hz, heq⟩ := List.mem_map.mp hmap
      rwa [← atPlace_inj hbs hlen (hin (hg.source hz)) (hin hx) heq]
    rw [List.mem_map, List.mem_map]
    constructor
    · rintro ⟨y, hy, rfl⟩
      have hya := hin (hg.target hy)
      exact ⟨_, (hedge hya).mp hy, idxOf_atPlace hbs hlen hya⟩
    · rintro ⟨z, hz, rfl⟩
      obtain ⟨y, hya, rfl⟩ := exists_atPlace hlen has ((hmem' z).mpr (hh.target hz))
      exact ⟨y, (hedge hya).mpr hz, (idxOf_atPlace hbs hlen hya).symm⟩

end Dataflow.Graph

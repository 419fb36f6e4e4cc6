import Dataflow.Graph.Walk
import Dataflow.Proofs.Graph.Order
import Dataflow.Proofs.Graph.WellFormed

/-!
# Walks and paths

What a walk visits: the nodes on its stack, and with every node the nodes behind it
(`walk_closed`). It visits nothing outside a set that is closed in this way (`walk_subset`), and
comes to every node of the result along an edge from another one (`walk_edge`).
-/

namespace Dataflow.Graph

section

variable {α : Type} {g : Graph α} {next : Vertex α → List NodeId} {stack visited : List NodeId}
  {x y start : NodeId}

theorem subset_walk : visited ⊆ g.walk next stack visited := by
  induction stack, visited using walk.induct g next with
  | case1 visited => simp [walk]
  | case2 visited id rest hv ih => rw [walk]; split <;> simp_all
  | case3 visited id rest v hv hmem ih => rw [walk]; split <;> simp_all
  | case4 visited id rest v hv hmem ih =>
    rw [walk]
    split
    · simp_all
    · rename_i w hw
      obtain rfl : v = w := by simpa [hv] using hw
      simp only [hmem, dite_false]
      exact fun z hz => ih (List.mem_cons_of_mem _ hz)

/-- The equations of a walk, by the first node of its stack. -/
theorem walk_missing {rest : List NodeId} (h : g.vertices[x]? = none) :
    g.walk next (x :: rest) visited = g.walk next rest visited := by
  rw [walk]
  split <;> simp_all

theorem walk_visited {rest : List NodeId} (h : x ∈ visited) :
    g.walk next (x :: rest) visited = g.walk next rest visited := by
  rw [walk]
  split
  · rfl
  · simp [h]

theorem walk_visit {rest : List NodeId} {v : Vertex α} (h : g.vertices[x]? = some v)
    (hx : x ∉ visited) :
    g.walk next (x :: rest) visited = g.walk next (next v ++ rest) (x :: visited) := by
  rw [walk]
  split
  · simp_all
  · rename_i w hw
    obtain rfl : v = w := by simpa [h] using hw
    simp [hx]

theorem walk_nodup (h : visited.Nodup) : (g.walk next stack visited).Nodup := by
  induction stack, visited using walk.induct g next with
  | case1 visited => simpa [walk] using h
  | case2 visited id rest hv ih => rw [walk_missing hv]; exact ih h
  | case3 visited id rest v hv hmem ih => rw [walk_visited hmem]; exact ih h
  | case4 visited id rest v hv hmem ih =>
    rw [walk_visit hv hmem]
    exact ih (List.nodup_cons.mpr ⟨hmem, h⟩)

/-- A walk does not leave a set that is closed in its direction. -/
theorem walk_subset {R : NodeId → Prop}
    (hR : ∀ x v, R x → g.vertices[x]? = some v → ∀ y ∈ next v, R y)
    (hstack : ∀ x ∈ stack, R x) (hvisited : ∀ x ∈ visited, R x) :
    ∀ x ∈ g.walk next stack visited, R x := by
  induction stack, visited using walk.induct g next with
  | case1 visited => simpa [walk] using hvisited
  | case2 visited id rest hv ih =>
    rw [walk_missing hv]
    exact ih (fun x hx => hstack x (by simp [hx])) hvisited
  | case3 visited id rest v hv hmem ih =>
    rw [walk_visited hmem]
    exact ih (fun x hx => hstack x (by simp [hx])) hvisited
  | case4 visited id rest v hv hmem ih =>
    rw [walk_visit hv hmem]
    have hid : R id := hstack id (by simp)
    refine ih (fun x hx => ?_) (fun x hx => ?_)
    · rcases List.mem_append.mp hx with hx | hx
      · exact hR id v hid hv x hx
      · exact hstack x (by simp [hx])
    · rcases List.mem_cons.mp hx with rfl | hx
      · exact hid
      · exact hvisited x hx

theorem walk_contains (h : ∀ x ∈ visited, g.contains x = true) :
    ∀ x ∈ g.walk next stack visited, g.contains x = true := by
  induction stack, visited using walk.induct g next with
  | case1 visited => simpa [walk] using h
  | case2 visited id rest hv ih => rw [walk_missing hv]; exact ih h
  | case3 visited id rest v hv hmem ih => rw [walk_visited hmem]; exact ih h
  | case4 visited id rest v hv hmem ih =>
    rw [walk_visit hv hmem]
    refine ih fun x hx => ?_
    rcases List.mem_cons.mp hx with rfl | hx
    · simp [contains_eq, hv]
    · exact h x hx

/-- A walk visits the nodes on its stack and, with each node, those behind it. -/
theorem walk_closed (hclosed : ∀ x v, x ∈ visited → g.vertices[x]? = some v → ∀ y ∈ next v,
      g.contains y = true → y ∈ visited ∨ y ∈ stack) :
    (∀ x ∈ stack, g.contains x = true → x ∈ g.walk next stack visited) ∧
      ∀ x v, x ∈ g.walk next stack visited → g.vertices[x]? = some v → ∀ y ∈ next v,
        g.contains y = true → y ∈ g.walk next stack visited := by
  induction stack, visited using walk.induct g next with
  | case1 visited => simpa [walk] using hclosed
  | case2 visited id rest hv ih =>
    rw [walk_missing hv]
    have hid : g.contains id = false := by simp [contains_eq, hv]
    obtain ⟨hs, hc⟩ := ih fun x v hx hxv y hy hyc => by
      rcases hclosed x v hx hxv y hy hyc with h | h
      · exact .inl h
      · rcases List.mem_cons.mp h with rfl | h
        · rw [hid] at hyc; exact absurd hyc (by simp)
        · exact .inr h
    refine ⟨fun x hx hxc => ?_, hc⟩
    rcases List.mem_cons.mp hx with rfl | hx
    · rw [hid] at hxc; exact absurd hxc (by simp)
    · exact hs x hx hxc
  | case3 visited id rest v hv hmem ih =>
    rw [walk_visited hmem]
    obtain ⟨hs, hc⟩ := ih fun x v hx hxv y hy hyc => by
      rcases hclosed x v hx hxv y hy hyc with h | h
      · exact .inl h
      · rcases List.mem_cons.mp h with rfl | h
        · exact .inl hmem
        · exact .inr h
    refine ⟨fun x hx hxc => ?_, hc⟩
    rcases List.mem_cons.mp hx with rfl | hx
    · exact subset_walk hmem
    · exact hs x hx hxc
  | case4 visited id rest v hv hmem ih =>
    rw [walk_visit hv hmem]
    obtain ⟨hs, hc⟩ := ih fun x w hx hxw y hy hyc => by
      rcases List.mem_cons.mp hx with rfl | hx
      · obtain rfl : v = w := by simpa [hv] using hxw
        exact .inr (by simp [hy])
      · rcases hclosed x w hx hxw y hy hyc with h | h
        · exact .inl (by simp [h])
        · rcases List.mem_cons.mp h with rfl | h
          · exact .inl (by simp)
          · exact .inr (by simp [h])
    refine ⟨fun x hx hxc => ?_, hc⟩
    rcases List.mem_cons.mp hx with rfl | hx
    · exact subset_walk (by simp)
    · exact hs x (by simp [hx]) hxc

/-- A walk comes to a node from its stack or along an edge from a node that it visits. -/
theorem walk_edge : ∀ x ∈ g.walk next stack visited, x ∈ visited ∨ x ∈ stack ∨
    ∃ y v, y ∈ g.walk next stack visited ∧ g.vertices[y]? = some v ∧ x ∈ next v := by
  induction stack, visited using walk.induct g next with
  | case1 visited => intro x hx; exact .inl (by simpa [walk] using hx)
  | case2 visited id rest hv ih =>
    rw [walk_missing hv]
    intro x hx
    rcases ih x hx with h | h | h
    · exact .inl h
    · exact .inr (.inl (by simp [h]))
    · exact .inr (.inr h)
  | case3 visited id rest v hv hmem ih =>
    rw [walk_visited hmem]
    intro x hx
    rcases ih x hx with h | h | h
    · exact .inl h
    · exact .inr (.inl (by simp [h]))
    · exact .inr (.inr h)
  | case4 visited id rest v hv hmem ih =>
    rw [walk_visit hv hmem]
    intro x hx
    rcases ih x hx with h | h | h
    · rcases List.mem_cons.mp h with rfl | h
      · exact .inr (.inl (by simp))
      · exact .inl h
    · rcases List.mem_append.mp h with h | h
      · exact .inr (.inr ⟨id, v, subset_walk (by simp), hv, h⟩)
      · exact .inr (.inl (by simp [h]))
    · exact .inr (.inr h)

/-- A walk in a copy visits the new keys of what a walk in the original visits, one after the
other. -/
theorem walk_renamed {β : Type} {g' : Graph β} {next' : Vertex β → List NodeId} {R : NodeId → Prop}
    {φ : NodeId → NodeId} (hR : ∀ x v, R x → g.vertices[x]? = some v → ∀ y ∈ next v, R y)
    (hmissing : ∀ x, R x → g.vertices[x]? = none → g'.vertices[φ x]? = none)
    (hnext : ∀ x v, R x → g.vertices[x]? = some v →
      ∃ w, g'.vertices[φ x]? = some w ∧ next' w = (next v).map φ)
    (hinj : ∀ x, R x → ∀ y, R y → φ x = φ y → x = y) (hstack : ∀ x ∈ stack, R x)
    (hvisited : ∀ x ∈ visited, R x) :
    g'.walk next' (stack.map φ) (visited.map φ) = (g.walk next stack visited).map φ := by
  have hmem : ∀ {x : NodeId} {visited : List NodeId}, R x → (∀ y ∈ visited, R y) →
      (φ x ∈ visited.map φ ↔ x ∈ visited) := by
    intro x visited hx hvisited
    refine ⟨fun h => ?_, List.mem_map_of_mem⟩
    obtain ⟨y, hy, heq⟩ := List.mem_map.mp h
    exact hinj y (hvisited y hy) x hx heq ▸ hy
  induction stack, visited using walk.induct g next with
  | case1 visited => simp [walk]
  | case2 visited id rest hv ih =>
    have hid : R id := hstack id (by simp)
    rw [List.map_cons, walk_missing (hmissing id hid hv), walk_missing hv]
    exact ih (fun x hx => hstack x (by simp [hx])) hvisited
  | case3 visited id rest v hv hid ih =>
    rw [List.map_cons, walk_visited (List.mem_map_of_mem hid), walk_visited hid]
    exact ih (fun x hx => hstack x (by simp [hx])) hvisited
  | case4 visited id rest v hv hid ih =>
    have hRid : R id := hstack id (by simp)
    obtain ⟨w, hw, hwnext⟩ := hnext id v hRid hv
    have hnew : φ id ∉ visited.map φ := fun h => hid ((hmem hRid hvisited).mp h)
    rw [List.map_cons, walk_visit hw hnew, walk_visit hv hid, hwnext, ← List.map_append,
      ← List.map_cons]
    refine ih (fun x hx => ?_) (fun x hx => ?_)
    · rcases List.mem_append.mp hx with hx | hx
      · exact hR id v hRid hv x hx
      · exact hstack x (by simp [hx])
    · rcases List.mem_cons.mp hx with rfl | hx
      · exact hRid
      · exact hvisited x hx

/-! ## Descendants -/

theorem successors_of_getElem? {v : Vertex α} (h : g.vertices[x]? = some v) :
    g.successors x = v.outs :=
  (getElem?_vertices.mp h).2.1

theorem exists_vertex (h : g.contains x = true) : ∃ v, g.vertices[x]? = some v :=
  Option.isSome_iff_exists.mp (by rwa [← contains_eq])

theorem descendants_nodup : (g.descendants start).Nodup :=
  List.nodup_reverse.mpr (walk_nodup List.nodup_nil)

theorem contains_of_mem_descendants (h : x ∈ g.descendants start) : g.contains x = true :=
  walk_contains (by simp) x (List.mem_reverse.mp h)

theorem self_mem_descendants (h : g.contains start = true) : start ∈ g.descendants start :=
  List.mem_reverse.mpr ((walk_closed (by simp)).1 start (by simp) h)

theorem WellFormed.mem_descendants (h : g.WellFormed) (hx : x ∈ g.descendants start)
    (hy : y ∈ g.successors x) : y ∈ g.descendants start := by
  obtain ⟨v, hv⟩ := exists_vertex (contains_of_mem_descendants hx)
  rw [successors_of_getElem? hv] at hy
  exact List.mem_reverse.mpr ((walk_closed (by simp)).2 x v (List.mem_reverse.mp hx) hv y hy
    (h.target (by rwa [successors_of_getElem? hv])))

/-- The descendants of a node lie in every set that it lies in and that is closed along edges. -/
theorem descendants_subset {R : NodeId → Prop} (hstart : R start)
    (hR : ∀ x, R x → ∀ y ∈ g.successors x, R y) : ∀ x ∈ g.descendants start, R x := by
  intro x hx
  refine walk_subset (fun x v hx hv y hy => ?_) (by simpa using hstart) (by simp) x
    (List.mem_reverse.mp hx)
  exact hR x hx y (by rwa [successors_of_getElem? hv])

/-- Every descendant but the first is an output of another one. -/
theorem exists_mem_descendants (h : x ∈ g.descendants start) (hx : x ≠ start) :
    ∃ y ∈ g.descendants start, x ∈ g.successors y := by
  rcases walk_edge x (List.mem_reverse.mp h) with h | h | ⟨y, v, hy, hv, hxv⟩
  · exact absurd h (by simp)
  · exact absurd (by simpa using h) hx
  · exact ⟨y, List.mem_reverse.mpr hy, by rwa [successors_of_getElem? hv]⟩

/-- Where the nodes behind `start` and the edges among them are found again under new keys, the walk
from there visits them in the same order. -/
theorem WellFormed.descendants_renamed {g' : Graph α} {φ : NodeId → NodeId} (h : g.WellFormed)
    (hstart : g.contains start = true)
    (hcontains : ∀ x ∈ g.descendants start, g'.contains (φ x) = true)
    (hsuc : ∀ x ∈ g.descendants start, g'.successors (φ x) = (g.successors x).map φ)
    (hinj : ∀ x ∈ g.descendants start, ∀ y ∈ g.descendants start, φ x = φ y → x = y) :
    g'.descendants (φ start) = (g.descendants start).map φ := by
  have hwalk : g'.walk Vertex.outs ([start].map φ) ([].map φ) =
      (g.walk Vertex.outs [start] []).map φ := by
    refine walk_renamed (R := (· ∈ g.descendants start)) (fun x v hx hv y hy => ?_)
      (fun x hx hv => ?_) (fun x v hx hv => ?_) hinj ?_ (by simp)
    · exact h.mem_descendants hx (by rwa [successors_of_getElem? hv])
    · have := contains_of_mem_descendants hx
      simp [contains_eq, hv] at this
    · obtain ⟨w, hw⟩ := exists_vertex (hcontains x hx)
      refine ⟨w, hw, ?_⟩
      rw [← successors_of_getElem? hv, ← successors_of_getElem? hw, hsuc x hx]
    · simpa using self_mem_descendants hstart
  show (g'.walk Vertex.outs ([start].map φ) ([].map φ)).reverse = _
  rw [hwalk, ← List.map_reverse]
  rfl

end

/-!
## Paths and new edges

The search for a node finds it exactly if a path leads to it (`reaches_iff_hasPath`): what leads to
it is on the stack, or lies behind what is on the stack, as long as it was not found (`search_iff`).
So `reaches` is the least reflexive relation that is closed along edges (`reaches_of_edge`,
`reaches_induction`), and more edges only make more of it (`reaches_mono`). An edge that leads to
where no path leads back from closes no cycle (`Acyclic.of_new_edge`).
-/

section

variable {α : Type} {g g' : Graph α} {a b x y : NodeId} {stack visited : List NodeId}

/-- A path of any length leads from `a` to `b`, also one without edges. -/
def HasPath (g : Graph α) : NodeId → NodeId → Prop :=
  Relation.ReflTransGen fun x y => y ∈ g.successors x

/-- A path that starts at a visited node and ends at another node comes through the stack, if what
is behind the visited nodes was visited or stacked. -/
theorem HasPath.through_stack
    (hclosed : ∀ x ∈ visited, ∀ y ∈ g.successors x, y ∈ visited ∨ y ∈ stack)
    (hb : b ∉ visited) (h : g.HasPath x b) :
    x ∈ visited → ∃ y ∈ stack, y ∉ visited ∧ g.HasPath y b := by
  induction h using Relation.ReflTransGen.head_induction_on with
  | refl => exact fun hx => absurd hx hb
  | @head x y hy hyb ih =>
    intro hx
    by_cases hyv : y ∈ visited
    · exact ih hyv
    · exact ⟨y, (hclosed x hx y hy).resolve_left hyv, hyv, hyb⟩

theorem search_iff (hclosed : ∀ x ∈ visited, ∀ y ∈ g.successors x, y ∈ visited ∨ y ∈ stack)
    (hb : b ∉ visited) : g.search b stack visited = true ↔ ∃ x ∈ stack, g.HasPath x b := by
  induction stack, visited using search.induct g b with
  | case1 visited => simp [search]
  | case2 visited rest =>
    rw [search, if_pos rfl]
    exact iff_of_true rfl ⟨b, List.mem_cons_self, .refl⟩
  | case3 visited id rest hid hmem ih =>
    rw [search, if_neg hid, dif_pos hmem]
    have hrest : ∀ x ∈ visited, ∀ y ∈ g.successors x, y ∈ visited ∨ y ∈ rest := by
      intro x hx y hy
      rcases hclosed x hx y hy with h | h
      · exact .inl h
      · rcases List.mem_cons.mp h with rfl | h
        · exact .inl hmem
        · exact .inr h
    rw [ih hrest hb]
    constructor
    · exact fun ⟨x, hx, hxb⟩ => ⟨x, List.mem_cons_of_mem id hx, hxb⟩
    · rintro ⟨x, hx, hxb⟩
      rcases List.mem_cons.mp hx with rfl | hx
      · obtain ⟨y, hy, -, hyb⟩ := hxb.through_stack hrest hb hmem
        exact ⟨y, hy, hyb⟩
      · exact ⟨x, hx, hxb⟩
  | case4 visited id rest hid hmem ih =>
    rw [search, if_neg hid, dif_neg hmem]
    have hnext : ∀ x ∈ id :: visited, ∀ y ∈ g.successors x,
        y ∈ id :: visited ∨ y ∈ (g.successors id).reverse ++ rest := by
      intro x hx y hy
      rcases List.mem_cons.mp hx with rfl | hx
      · exact .inr (by simp [hy])
      · rcases hclosed x hx y hy with h | h
        · exact .inl (List.mem_cons_of_mem id h)
        · rcases List.mem_cons.mp h with rfl | h
          · exact .inl List.mem_cons_self
          · exact .inr (by simp [h])
    rw [ih hnext (by simp [hb, Ne.symm hid])]
    constructor
    · rintro ⟨x, hx, hxb⟩
      rcases List.mem_append.mp hx with hx | hx
      · exact ⟨id, List.mem_cons_self, .head (List.mem_reverse.mp hx) hxb⟩
      · exact ⟨x, List.mem_cons_of_mem id hx, hxb⟩
    · rintro ⟨x, hx, hxb⟩
      rcases List.mem_cons.mp hx with rfl | hx
      · -- the target is another node, so that the path has a first edge
        rcases Relation.ReflTransGen.cases_head hxb with heq | ⟨y, hy, hyb⟩
        · exact absurd heq hid
        · exact ⟨y, by simp [hy], hyb⟩
      · exact ⟨x, by simp [hx], hxb⟩

/-- Paths are found, in any graph, and nothing else is. -/
theorem reaches_iff_hasPath : g.reaches a b = true ↔ g.HasPath a b := by
  unfold reaches
  rw [search_iff (by simp) (by simp)]
  simp

@[simp] theorem reaches_self : g.reaches a a = true := reaches_iff_hasPath.mpr .refl

/-- What holds of a node and is passed on along edges holds of all that the node reaches. -/
theorem reaches_induction {R : NodeId → Prop} (hstart : R a)
    (hR : ∀ x, R x → ∀ y ∈ g.successors x, R y) (hab : g.reaches a b = true) : R b := by
  have hpath := reaches_iff_hasPath.mp hab
  induction hpath with
  | refl => exact hstart
  | tail _ hy ih => exact hR _ (ih (reaches_iff_hasPath.mpr ‹_›)) _ hy

theorem reaches_of_edge (hab : g.reaches a x = true) (hy : y ∈ g.successors x) :
    g.reaches a y = true :=
  reaches_iff_hasPath.mpr ((reaches_iff_hasPath.mp hab).tail hy)

theorem reaches_trans (hax : g.reaches a x = true) (hxb : g.reaches x b = true) :
    g.reaches a b = true :=
  reaches_iff_hasPath.mpr ((reaches_iff_hasPath.mp hax).trans (reaches_iff_hasPath.mp hxb))

theorem reaches_mono (hsub : ∀ x, ∀ y ∈ g.successors x, y ∈ g'.successors x)
    (hab : g.reaches a b = true) : g'.reaches a b = true :=
  reaches_induction (R := fun x => g'.reaches a x = true) reaches_self
    (fun x hx y hy => reaches_of_edge hx (hsub x y hy)) hab

/-- What a node reaches are the node itself and its descendants. -/
theorem reaches_iff (h : g.WellFormed) : g.reaches a b = true ↔ a = b ∨ b ∈ g.descendants a := by
  constructor
  · intro hab
    refine reaches_induction (R := fun x => a = x ∨ x ∈ g.descendants a) (.inl rfl) ?_ hab
    intro x hx y hy
    right
    rcases hx with rfl | hx
    · exact h.mem_descendants (self_mem_descendants (contains_of_mem_successors hy)) hy
    · exact h.mem_descendants hx hy
  · intro hab
    rcases hab with rfl | hb
    · exact reaches_self
    · exact descendants_subset (R := fun x => g.reaches a x = true) reaches_self
        (fun _ hx _ hy => reaches_of_edge hx hy) b hb

/-- A node without outputs reaches only itself. -/
theorem reaches_eq_false (hout : g.successors a = []) (hne : a ≠ b) : g.reaches a b = false := by
  rw [Bool.eq_false_iff]
  intro hab
  refine hne (reaches_induction (R := fun x => a = x) rfl (fun x hx y hy => ?_) hab)
  subst hx
  simp [hout] at hy

/-- All that can be reached from the target of the new edge is lifted above its source. -/
theorem Acyclic.of_new_edge (hac : g.Acyclic) (hback : g.reaches b a = false)
    (hnew : ∀ x, ∀ y ∈ g'.successors x, y ∈ g.successors x ∨ x = a ∧ y = b) : g'.Acyclic := by
  obtain ⟨rank, hrank⟩ := hac
  let lifted (z : NodeId) : Nat := rank z + if g.reaches b z then rank a + 1 else 0
  refine ⟨lifted, fun x y hy => ?_⟩
  rcases hnew x y hy with hold | ⟨rfl, rfl⟩
  · have hlt := hrank x y hold
    -- the target is lifted whenever the source is
    have hup : g.reaches b x = true → g.reaches b y = true := fun hx => reaches_of_edge hx hold
    show rank x + (if g.reaches b x then rank a + 1 else 0) <
      rank y + if g.reaches b y then rank a + 1 else 0
    by_cases hx : g.reaches b x = true
    · rw [if_pos hx, if_pos (hup hx)]
      omega
    · rw [if_neg hx]
      omega
  · show rank x + (if g.reaches y x then rank x + 1 else 0) <
      rank y + if g.reaches y y then rank x + 1 else 0
    simp only [hback, reaches_self, Bool.false_eq_true, ↓reduceIte]
    omega

theorem Acyclic.of_subset (hac : g.Acyclic)
    (hsub : ∀ x, ∀ y ∈ g'.successors x, y ∈ g.successors x) : g'.Acyclic := by
  obtain ⟨rank, hrank⟩ := hac
  exact ⟨rank, fun x y hy => hrank x y (hsub x y hy)⟩

theorem hasCycle_eq_false_iff (h : g.WellFormed) : g.hasCycle = false ↔ g.Acyclic := by
  rw [← exists_topologicalOrder_iff h, hasCycle]
  cases g.topologicalOrder <;> simp [Except.toOption]

/-! ### Ancestors -/

theorem predecessors_of_getElem? {v : Vertex α} (h : g.vertices[x]? = some v) :
    g.predecessors x = v.ins :=
  (getElem?_vertices.mp h).2.2

/-- The ancestors of a node are the nodes that reach it. -/
theorem mem_ancestors_iff (h : g.WellFormed) (hb : g.contains b = true) :
    a ∈ g.ancestors b ↔ g.reaches a b = true := by
  constructor
  · intro ha
    refine walk_subset (R := fun x => g.reaches x b = true) (fun x v hx hv y hy => ?_) (by simp)
      (by simp) a (List.mem_reverse.mp ha)
    have hedge : x ∈ g.successors y := by
      rw [h.edge, predecessors_of_getElem? hv]
      exact hy
    exact reaches_trans (reaches_of_edge reaches_self hedge) hx
  · intro hab
    obtain ⟨hself, hclosed⟩ := @walk_closed _ g Vertex.ins [b] [] (by simp)
    -- what reaches a node that is visited is visited
    refine reaches_induction (R := fun x => x ∈ g.ancestors b → a ∈ g.ancestors b) id
      (fun x hx y hy hmem => hx ?_) hab (List.mem_reverse.mpr (hself b (by simp) hb))
    obtain ⟨v, hv⟩ := exists_vertex (h.target hy)
    have hyx : x ∈ v.ins := by
      rw [← predecessors_of_getElem? hv]
      exact (h.edge x y).mp hy
    exact List.mem_reverse.mpr (hclosed y v (List.mem_reverse.mp hmem) hv x hyx
      (contains_of_mem_successors hy))

theorem contains_of_reaches (h : g.WellFormed) (hab : g.reaches a b = true)
    (hb : g.contains b = true) : g.contains a = true :=
  walk_contains (by simp) a (List.mem_reverse.mp ((mem_ancestors_iff h hb).mpr hab))

end

end Dataflow.Graph

import Dataflow.Proofs.Graph.Reach

/-!
# Searches turn by turn

The search for a node and the walks along the edges and against them are loops over a stack that
grows and shrinks, and the same key may be pushed many times. Here a loop is given by its turn,
which goes on with another state or ends with a result (`searchTurn`, `walkTurn`). Every turn takes
a key off the stack, and the edges of a node are pushed only once; so a loop has at most as many
turns as there are edges, besides the one for the node where it starts (`search_ends`, `walk_ends`).
Cycles make no difference to that. What a loop ends with is exact (`reachability_exact`).
-/

namespace Dataflow.Graph

variable {α σ ρ : Type} {g : Graph α} {next : Vertex α → List NodeId} {a b x start : NodeId}
  {stack visited : List NodeId}

/-! ## Loops -/

/-- The loop goes on for so many turns and then ends with the result. -/
inductive Ends (turn : σ → σ ⊕ ρ) (result : ρ) : Nat → σ → Prop
  | now {s : σ} (last : turn s = .inr result) : Ends turn result 0 s
  | later {n : Nat} {s t : σ} (first : turn s = .inl t) (rest : Ends turn result n t) :
    Ends turn result (n + 1) s

/-- A loop ends if every turn that goes on makes a measure less, and with the result that no such
turn changes. -/
theorem exists_ends (turn : σ → σ ⊕ ρ) (result : σ → ρ) (measure : σ → Nat)
    (hlast : ∀ s r, turn s = .inr r → result s = r)
    (hnext : ∀ s t, turn s = .inl t → measure t < measure s ∧ result t = result s) (s : σ) :
    ∃ n ≤ measure s, Ends turn (result s) n s := by
  induction hm : measure s using Nat.strongRecOn generalizing s with
  | _ m ih =>
    cases hs : turn s with
    | inr r =>
      rw [hlast s r hs]
      exact ⟨0, Nat.zero_le m, .now hs⟩
    | inl t =>
      obtain ⟨hless, hsame⟩ := hnext s t hs
      obtain ⟨n, hn, hends⟩ := ih (measure t) (hm ▸ hless) t rfl
      rw [hsame] at hends
      exact ⟨n + 1, by omega, .later hs hends⟩

/-! ## The loops -/

/-- One turn of the search for a node, with the stack and the visited nodes as its state. -/
def searchTurn (g : Graph α) (target : NodeId) :
    List NodeId × List NodeId → (List NodeId × List NodeId) ⊕ Bool
  | ([], _) => .inr false
  | (id :: rest, visited) =>
    if id = target then .inr true
    else if id ∈ visited then .inl (rest, visited)
    else .inl ((g.successors id).reverse ++ rest, id :: visited)

/-- One turn of a walk, with the stack and the visited nodes as its state. -/
def walkTurn (g : Graph α) (next : Vertex α → List NodeId) :
    List NodeId × List NodeId → (List NodeId × List NodeId) ⊕ List NodeId
  | ([], visited) => .inr visited.reverse
  | (id :: rest, visited) =>
    match g.vertices[id]? with
    | none => .inl (rest, visited)
    | some v =>
      if id ∈ visited then .inl (rest, visited) else .inl (next v ++ rest, id :: visited)

theorem pending_pop {rest : List NodeId} :
    g.pending next rest visited < g.pending next (x :: rest) visited := by
  simp only [pending, List.length_cons]
  omega

theorem search_ends (g : Graph α) (target : NodeId) (stack visited : List NodeId) :
    ∃ n ≤ g.pending Vertex.outs stack visited,
      Ends (g.searchTurn target) (g.search target stack visited) n (stack, visited) := by
  refine exists_ends (g.searchTurn target) (fun s => g.search target s.1 s.2)
    (fun s => g.pending Vertex.outs s.1 s.2) ?_ ?_ (stack, visited)
  · intro ⟨stack, visited⟩ r hr
    cases stack with
    | nil =>
      rw [search]
      exact Sum.inr.inj hr
    | cons id rest =>
      unfold searchTurn at hr
      dsimp only at hr
      split_ifs at hr with hid
      rw [search, if_pos hid]
      exact Sum.inr.inj hr
  · intro ⟨stack, visited⟩ t ht
    cases stack with
    | nil => cases ht
    | cons id rest =>
      unfold searchTurn at ht
      dsimp only at ht
      split_ifs at ht with hid hmem
      · obtain rfl := Sum.inl.inj ht
        refine ⟨pending_pop, ?_⟩
        conv_rhs => rw [search, if_neg hid, dif_pos hmem]
      · obtain rfl := Sum.inl.inj ht
        refine ⟨pending_search rest hmem, ?_⟩
        conv_rhs => rw [search, if_neg hid, dif_neg hmem]

theorem walk_ends (g : Graph α) (next : Vertex α → List NodeId) (stack visited : List NodeId) :
    ∃ n ≤ g.pending next stack visited,
      Ends (g.walkTurn next) (g.walk next stack visited).reverse n (stack, visited) := by
  refine exists_ends (g.walkTurn next) (fun s => (g.walk next s.1 s.2).reverse)
    (fun s => g.pending next s.1 s.2) ?_ ?_ (stack, visited)
  · intro ⟨stack, visited⟩ r hr
    cases stack with
    | nil =>
      rw [walk]
      exact Sum.inr.inj hr
    | cons id rest =>
      unfold walkTurn at hr
      dsimp only at hr
      split at hr
      · cases hr
      · split_ifs at hr
  · intro ⟨stack, visited⟩ t ht
    cases stack with
    | nil => cases ht
    | cons id rest =>
      unfold walkTurn at ht
      dsimp only at ht
      split at ht
      · rename_i hv
        obtain rfl := Sum.inl.inj ht
        exact ⟨pending_pop, congrArg List.reverse (walk_missing hv).symm⟩
      · rename_i v hv
        split_ifs at ht with hmem
        · obtain rfl := Sum.inl.inj ht
          exact ⟨pending_pop, congrArg List.reverse (walk_visited hmem).symm⟩
        · obtain rfl := Sum.inl.inj ht
          exact ⟨pending_visit next rest hv hmem, congrArg List.reverse (walk_visit hv hmem).symm⟩

/-! ## How many turns -/

/-- How many keys a view of the edges lists for all nodes together. -/
def listed (g : Graph α) (view : NodeId → List NodeId) : Nat :=
  (g.ids.map fun x => (view x).length).sum

theorem unvisitedEdges_nil (l : List (NodeId × Vertex α)) :
    unvisitedEdges next [] l = (l.map fun p => (next p.2).length).sum := by
  induction l with
  | nil => rfl
  | cons p l ih =>
    rw [List.map_cons, List.sum_cons, ← ih]
    simp [unvisitedEdges]

/-- At the start of a loop everything but one key is still to be pushed. -/
theorem WellFormed.pending_start (h : g.WellFormed) (start : NodeId)
    {view : NodeId → List NodeId} (hview : ∀ x v, g.vertices[x]? = some v → next v = view x) :
    g.pending next [start] [] = 1 + g.listed view := by
  have hnodes : g.vertices.toList.map (fun p => (next p.2).length) =
      g.vertices.keys.map fun x => (view x).length := by
    rw [← Std.TreeMap.map_fst_toList_eq_keys, List.map_map]
    apply List.map_congr_left
    intro p hp
    have hp := Std.TreeMap.mem_toList_iff_getElem?_eq_some.mp hp
    exact congrArg List.length (hview p.1 p.2 hp)
  have hsum := (h.keys_perm.map fun x => (view x).length).sum_nat
  unfold pending
  rw [unvisitedEdges_nil, hnodes, hsum]
  rfl

theorem WellFormed.descendants_ends (h : g.WellFormed) :
    ∃ n ≤ 1 + g.listed g.successors,
      Ends (g.walkTurn Vertex.outs) (g.descendants start) n ([start], []) := by
  rw [← h.pending_start start fun _ _ hv => (successors_of_getElem? hv).symm]
  exact walk_ends g Vertex.outs [start] []

theorem WellFormed.ancestors_ends (h : g.WellFormed) :
    ∃ n ≤ 1 + g.listed g.predecessors,
      Ends (g.walkTurn Vertex.ins) (g.ancestors start) n ([start], []) := by
  rw [← h.pending_start start fun _ _ hv => (predecessors_of_getElem? hv).symm]
  exact walk_ends g Vertex.ins [start] []

theorem WellFormed.reaches_ends (h : g.WellFormed) :
    ∃ n ≤ 1 + g.listed g.successors,
      Ends (g.searchTurn b) (g.reaches a b) n ([a], []) := by
  rw [← h.pending_start a fun _ _ hv => (successors_of_getElem? hv).symm]
  exact search_ends g b [a] []

/-! ## What is found -/

/-- The descendants of a node are the nodes that paths from it lead to. -/
theorem WellFormed.mem_descendants_iff (h : g.WellFormed) (ha : g.contains a = true) :
    x ∈ g.descendants a ↔ g.HasPath a x := by
  rw [← reaches_iff_hasPath, reaches_iff h]
  constructor
  · exact .inr
  · intro hx
    rcases hx with rfl | hx
    · exact self_mem_descendants ha
    · exact hx

/-- The three loops end, with cycles or without, and what they find is what paths lead to. -/
theorem reachability_exact (h : g.WellFormed) (ha : g.contains a = true)
    (hb : g.contains b = true) :
    ((∃ n ≤ 1 + g.listed g.successors, Ends (g.searchTurn b) (g.reaches a b) n ([a], [])) ∧
      (∃ n ≤ 1 + g.listed g.successors,
        Ends (g.walkTurn Vertex.outs) (g.descendants a) n ([a], [])) ∧
      ∃ n ≤ 1 + g.listed g.predecessors,
        Ends (g.walkTurn Vertex.ins) (g.ancestors a) n ([a], [])) ∧
    (g.reaches a b = true ↔ g.HasPath a b) ∧
    ((g.descendants a).Nodup ∧ ∀ x, x ∈ g.descendants a ↔ g.HasPath a x) ∧
    (b ∈ g.descendants a ↔ a ∈ g.ancestors b) := by
  refine ⟨⟨h.reaches_ends, h.descendants_ends, h.ancestors_ends⟩, reaches_iff_hasPath,
    ⟨descendants_nodup, fun _ => h.mem_descendants_iff ha⟩, ?_⟩
  rw [h.mem_descendants_iff ha, mem_ancestors_iff h hb, reaches_iff_hasPath]

/-- Two ways lead around a cycle, and one leads out of it. -/
def roundabout : Graph String :=
  let nodes := ["a", "b", "c", "d"].foldl (fun g c => (g.add c).2) Graph.empty
  [(0, 1), (0, 2), (1, 2), (2, 0), (2, 3)].foldl
    (fun g (a, b) => (g.connect ⟨a⟩ ⟨b⟩).toOption.getD g) nodes

theorem roundabout_searched : roundabout.WellFormed ∧ roundabout.contains ⟨0⟩ = true ∧
    roundabout.contains ⟨3⟩ = true ∧
    (∃ n ≤ 6, Ends (roundabout.walkTurn Vertex.outs) [⟨0⟩, ⟨1⟩, ⟨2⟩, ⟨3⟩] n ([⟨0⟩], [])) ∧
    roundabout.HasPath ⟨0⟩ ⟨3⟩ ∧ ¬roundabout.HasPath ⟨3⟩ ⟨0⟩ ∧
    (⟨0⟩ : NodeId) ∈ roundabout.ancestors ⟨3⟩ := by
  have hwf : roundabout.WellFormed := by decide +kernel
  have ha : roundabout.contains ⟨0⟩ = true := by decide +kernel
  have hd : roundabout.contains ⟨3⟩ = true := by decide +kernel
  have hlisted : roundabout.descendants ⟨0⟩ = [⟨0⟩, ⟨1⟩, ⟨2⟩, ⟨3⟩] := by decide +kernel
  have hedges : 1 + roundabout.listed roundabout.successors = 6 := by decide +kernel
  obtain ⟨⟨-, hends, -⟩, hpath, -, hback⟩ := reachability_exact hwf ha hd
  obtain ⟨-, hnone, -⟩ := reachability_exact hwf hd ha
  rw [hedges, hlisted] at hends
  refine ⟨hwf, ha, hd, hends, hpath.mp (by decide +kernel), ?_, hback.mp (by simp [hlisted])⟩
  rw [← hnone]
  decide +kernel

end Dataflow.Graph

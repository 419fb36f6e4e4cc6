import Dataflow.Expr.Formula
import Dataflow.Proofs.Graph.Copy
import Dataflow.Proofs.Graph.Order

/-!
# Computing over the nodes of a formula

What is computed for the tree of operands below a node (`Formula.compute`) satisfies one equation
for each node of the formula, `compute_eq`, and is the only solution of these equations
(`compute_unique`). Copies of parts of a formula therefore give the same results as the originals
(`compute_renamed`).
-/

namespace Dataflow.Formula

open Dataflow.Graph

variable {β : Type} {f f' : Formula} {g : Graph Term} {x y root : NodeId} {t : Term}
  {node : NodeId → Term → List β → β} {miss : NodeId → β}

/-! ## Validity -/

/-- What any formula satisfies that was built by edits. -/
structure Sound (f : Formula) : Prop where
  wellFormed : f.graph.WellFormed
  keysBelow : f.graph.KeysBelow

/-- What `Formula.validate` checks: one root, no cycle, and operands as every term needs them. -/
structure Valid (f : Formula) : Prop where
  rooted : ∃ root, f.root = .ok root
  acyclic : f.graph.Acyclic
  arity : ∀ id t, f.graph.content? id = some t → (f.graph.successors id).length = t.arity

theorem root_eq_ok : f.root = .ok root ↔ f.graph.sources = [root] := by
  unfold Formula.root
  rcases f.graph.sources with _ | ⟨r, _ | ⟨r', l⟩⟩ <;> simp

theorem checkOperands_eq_ok {l : List (NodeId × Term)} : f.checkOperands l = .ok () ↔
    ∀ id t, (id, t) ∈ l → (f.graph.successors id).length = t.arity := by
  induction l with
  | nil => simp [checkOperands]
  | cons p l ih =>
    obtain ⟨id, t⟩ := p
    simp only [checkOperands]
    by_cases h : (f.graph.successors id).length = t.arity
    · rw [if_pos h, ih]
      constructor
      · rintro hl id' t' hm
        rcases List.mem_cons.mp hm with heq | hm
        · obtain ⟨rfl, rfl⟩ := Prod.mk.inj heq; exact h
        · exact hl id' t' hm
      · exact fun hl id' t' hm => hl id' t' (List.mem_cons_of_mem _ hm)
    · rw [if_neg h]
      simp only [reduceCtorEq, false_iff]
      exact fun hl => h (hl id t (by simp))

theorem validate_eq_ok (h : f.Sound) : f.validate = .ok () ↔ f.Valid := by
  unfold validate
  have hdiscard : ∀ {γ : Type} {r : Result γ}, discard r = .ok () ↔ ∃ c, r = .ok c := by
    intro γ r
    cases r <;> simp [discard, Functor.discard, Functor.mapConst, Except.map]
  rw [Pass.except_bind_eq_ok]
  simp only [hdiscard, Pass.except_bind_eq_ok, orError_eq_ok, checkOperands_eq_ok]
  constructor
  · rintro ⟨-, hroot, -, hacyclic, harity⟩
    exact ⟨hroot, (exists_topologicalOrder_iff h.wellFormed).mp hacyclic, fun id t ht =>
      harity id t ((h.wellFormed.mem_toList_iff).mpr ht)⟩
  · intro hv
    exact ⟨(), hv.rooted, (), (exists_topologicalOrder_iff h.wellFormed).mpr hv.acyclic,
      fun id t ht => hv.arity id t ((h.wellFormed.mem_toList_iff).mp ht)⟩

namespace Valid

theorem contains_root (hroot : f.root = .ok root) (h : f.Sound) :
    f.graph.contains root = true := by
  have : root ∈ f.graph.sources := by simp [root_eq_ok.mp hroot]
  exact h.wellFormed.contains_of_mem (List.mem_of_mem_filter this)

theorem predecessors_root (hroot : f.root = .ok root) : f.graph.predecessors root = [] := by
  have : root ∈ f.graph.sources := by simp [root_eq_ok.mp hroot]
  simpa using (List.mem_filter.mp this).2

end Valid

/-! ## Computing bottom up -/

/-- The result for a node from those for its operands, computed for the tree below it. -/
def compute (f : Formula) (node : NodeId → Term → List β → β) (miss : NodeId → β)
    (id : NodeId) : β := (f.unfold id).fold node miss

theorem foldAll_eq_map : ∀ l : List Unfolding,
    Unfolding.foldAll node miss l = l.map (Unfolding.fold node miss)
  | [] => rfl
  | u :: l => by rw [Unfolding.foldAll, foldAll_eq_map l]; rfl

theorem fold_unfoldTo_succ {n : Nat} (h : g.content? x = some t) :
    (unfoldTo g (n + 1) x).fold node miss =
      node x t ((g.successors x).map fun y => (unfoldTo g n y).fold node miss) := by
  obtain ⟨v, hv⟩ := exists_vertex (contains_of_content? h)
  obtain ⟨hc, ho, -⟩ := getElem?_vertices.mp hv
  obtain rfl : t = v.content := by simpa [h] using hc
  rw [unfoldTo, hv, Unfolding.fold, foldAll_eq_map, List.map_map, ho]
  rfl

/-- On a set that is closed under operands, a solution of the equations is what the trees give, if
they are deep enough. -/
theorem fold_unfoldTo {rank : NodeId → Nat} {R : NodeId → Prop} {val : NodeId → β} {bound : Nat}
    (hrank : ∀ a b, b ∈ g.successors a → rank a < rank b)
    (hbound : ∀ a, g.contains a = true → rank a < bound)
    (hR : ∀ x, R x → g.contains x = true ∧ ∀ y ∈ g.successors x, R y)
    (hval : ∀ x t, R x → g.content? x = some t →
      val x = node x t ((g.successors x).map val)) :
    ∀ n x, R x → bound ≤ n + rank x → (unfoldTo g n x).fold node miss = val x := by
  intro n
  induction n with
  | zero =>
    intro x hx hle
    have := hbound x (hR x hx).1
    omega
  | succ n ih =>
    intro x hx hle
    obtain ⟨hc, hsuc⟩ := hR x hx
    obtain ⟨t, ht⟩ := exists_content? hc
    rw [fold_unfoldTo_succ ht, hval x t hx ht]
    congr 1
    refine List.map_congr_left fun y hy => ih y (hsuc y hy) ?_
    have := hrank x y hy
    omega

/-- Trees that are deep enough all give the same. -/
theorem fold_unfoldTo_depth {rank : NodeId → Nat} {bound : Nat} (hg : g.WellFormed)
    (hrank : ∀ a b, b ∈ g.successors a → rank a < rank b)
    (hbound : ∀ a, g.contains a = true → rank a < bound) :
    ∀ n m x, g.contains x = true → bound ≤ n + rank x → bound ≤ m + rank x →
      (unfoldTo g n x).fold node miss = (unfoldTo g m x).fold node miss := by
  intro n
  induction n with
  | zero =>
    intro m x hx hn
    have := hbound x hx
    omega
  | succ n ih =>
    intro m x hx hn hm
    obtain ⟨t, ht⟩ := exists_content? hx
    cases m with
    | zero =>
      have := hbound x hx
      omega
    | succ m =>
      rw [fold_unfoldTo_succ ht, fold_unfoldTo_succ ht]
      congr 1
      refine List.map_congr_left fun y hy => ?_
      have := hrank x y hy
      exact ih m y (hg.target hy) (by omega) (by omega)

/-- The equation of a node. -/
theorem compute_eq (hf : f.graph.WellFormed) (hac : f.graph.Acyclic)
    (h : f.graph.content? x = some t) :
    f.compute node miss x = node x t ((f.graph.successors x).map (f.compute node miss)) := by
  obtain ⟨rank, hrank, hbound⟩ := hac.bounded hf
  have hx := contains_of_content? h
  have hpos := hbound x hx
  obtain ⟨n, hn⟩ : ∃ n, f.graph.size = n + 1 := ⟨f.graph.size - 1, by omega⟩
  unfold compute unfold
  rw [hn, fold_unfoldTo_succ h]
  congr 1
  refine List.map_congr_left fun y hy => ?_
  have := hrank x y hy
  exact fold_unfoldTo_depth hf hrank hbound n (n + 1) y (hf.target hy) (by omega) (by omega)

/-- The equations have one solution. -/
theorem compute_unique {R : NodeId → Prop} (val : NodeId → β) (hf : f.graph.WellFormed)
    (hac : f.graph.Acyclic)
    (hR : ∀ x, R x → f.graph.contains x = true ∧ ∀ y ∈ f.graph.successors x, R y)
    (hval : ∀ x t, R x → f.graph.content? x = some t →
      val x = node x t ((f.graph.successors x).map val)) (hx : R x) :
    f.compute node miss x = val x := by
  obtain ⟨rank, hrank, hbound⟩ := hac.bounded hf
  exact fold_unfoldTo hrank hbound hR hval _ x hx (Nat.le_add_right _ _)

/-- Nodes that are connected in the same way under other keys give the same results, if these do not
depend on keys. -/
theorem compute_renamed {node : Term → List β → β} {φ : NodeId → NodeId} (hf : f.Sound)
    (hac : f.graph.Acyclic) (hf' : f'.graph.WellFormed) (hac' : f'.graph.Acyclic)
    (hcontent : ∀ x ∈ f.graph.descendants root, f'.graph.content? (φ x) = f.graph.content? x)
    (hsuc : ∀ x ∈ f.graph.descendants root,
      f'.graph.successors (φ x) = (f.graph.successors x).map φ)
    (hx : x ∈ f.graph.descendants root) :
    f'.compute (fun _ => node) miss (φ x) = f.compute (fun _ => node) miss x := by
  refine (compute_unique (R := (· ∈ f.graph.descendants root))
    (fun x => f'.compute (fun _ => node) miss (φ x)) hf.wellFormed hac
    (fun y hy => ⟨contains_of_mem_descendants hy,
      fun z hz => hf.wellFormed.mem_descendants hy hz⟩) (fun y t hy ht => ?_) hx).symm
  rw [compute_eq hf' hac' ((hcontent y hy).trans ht), hsuc y hy, List.map_map]
  rfl

end Dataflow.Formula

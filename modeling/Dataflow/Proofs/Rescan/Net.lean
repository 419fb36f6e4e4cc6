import Dataflow.Proofs.Graph.Isomorphism
import Dataflow.Proofs.Plan.Edit
import Mathlib.Logic.Equiv.Basic
import Mathlib.Algebra.Group.End

/-!
# What is seen of a plan without its keys' meaning

A `Net` is what a plan amounts to when derived schemas are left aside and keys are mere names: at
each key an operator, if there is one, and the two lists of keys that it is connected with. Renaming
all keys at once (`Net.map`) is an action of the permutations of the keys; two nets that a
permutation leads to each other belong to isomorphic plans (`isomorphism_of_map`).
-/

namespace Dataflow

open Dataflow.Graph

/-- Operators and their edges, by key. -/
@[ext]
structure Net where
  op : NodeId → Option Operator
  outs : NodeId → List NodeId
  ins : NodeId → List NodeId

namespace Net

variable {N M K : Net} {φ ψ σ : Equiv.Perm NodeId} {x y u u' w w' : NodeId}

/-- The operator is a filter. -/
def IsFilter (N : Net) (x : NodeId) (name : Option String) (f : Formula) : Prop :=
  N.op x = some { name, operation := .filter f }

/-- The net with other keys. -/
def map (N : Net) (φ : Equiv.Perm NodeId) : Net where
  op x := N.op (φ.symm x)
  outs x := (N.outs (φ.symm x)).map φ
  ins x := (N.ins (φ.symm x)).map φ

@[simp] theorem op_map : (N.map φ).op (φ x) = N.op x := by simp [map]

@[simp] theorem outs_map : (N.map φ).outs (φ x) = (N.outs x).map φ := by simp [map]

@[simp] theorem ins_map : (N.map φ).ins (φ x) = (N.ins x).map φ := by simp [map]

@[simp] theorem map_one : N.map 1 = N := by
  refine Net.ext ?_ ?_ ?_ <;> funext x <;>
    simp [map, show (1 : Equiv.Perm NodeId).symm = 1 from rfl]

theorem map_map : (N.map φ).map ψ = N.map (ψ * φ) := by
  refine Net.ext ?_ ?_ ?_ <;> funext x <;>
    simp [map, Equiv.Perm.mul_def, Function.comp_def]

/-- Nets are equal if they agree at the renamed keys. -/
theorem eq_map_iff : M = N.map φ ↔ (∀ x, M.op (φ x) = N.op x) ∧
    (∀ x, M.outs (φ x) = (N.outs x).map φ) ∧ ∀ x, M.ins (φ x) = (N.ins x).map φ := by
  constructor
  · rintro rfl
    exact ⟨fun _ => op_map, fun _ => outs_map, fun _ => ins_map⟩
  · rintro ⟨hop, houts, hins⟩
    refine Net.ext ?_ ?_ ?_ <;> funext x
    · simpa [map] using hop (φ.symm x)
    · simpa [map] using houts (φ.symm x)
    · simpa [map] using hins (φ.symm x)

theorem renamed_apply : renamed (φ u) (φ w) (φ x) = φ (renamed u w x) := by
  by_cases hx : x = u
  · rw [hx, renamed_self, renamed_self]
  · rw [renamed_of_ne hx, renamed_of_ne (φ.injective.ne hx)]

theorem map_renamed_apply {xs : List NodeId} :
    (xs.map φ).map (renamed (φ u) (φ w)) = (xs.map (renamed u w)).map φ := by
  rw [List.map_map, List.map_map]
  exact List.map_congr_left fun _ _ => renamed_apply

theorem renamed_comm (huw' : u ≠ w') (hu'w : u' ≠ w) (huu' : u ≠ u') :
    renamed u' w' (renamed u w x) = renamed u w (renamed u' w' x) := by
  by_cases hx : x = u
  · rw [hx, renamed_self, renamed_of_ne huu', renamed_self, renamed_of_ne (Ne.symm hu'w)]
  by_cases hx' : x = u'
  · rw [hx', renamed_self, renamed_of_ne (Ne.symm huu'), renamed_self, renamed_of_ne (Ne.symm huw')]
  · rw [renamed_of_ne hx, renamed_of_ne hx', renamed_of_ne hx]

/-- Edges run between operators only. -/
structure Closed (N : Net) : Prop where
  outs : ∀ x y, y ∈ N.outs x → N.op x ≠ none ∧ N.op y ≠ none
  ins : ∀ x y, y ∈ N.ins x → N.op x ≠ none ∧ N.op y ≠ none

/-- Keys without operator may be exchanged at will. -/
theorem Closed.map_eq (h : N.Closed) (hσ : ∀ x, N.op x ≠ none → σ x = x) : N.map σ = N := by
  have hlist : ∀ l : List NodeId, (∀ y ∈ l, N.op y ≠ none) → l.map σ = l := fun l hl => by
    conv_rhs => rw [← List.map_id l]
    exact List.map_congr_left fun y hy => hσ y (hl y hy)
  -- a key without operator goes to one without
  have hnone : ∀ x, N.op x = none → N.op (σ x) = none := fun x hx => by
    by_contra hne
    have := σ.injective (hσ _ hne)
    rw [this] at hne
    exact hne hx
  refine (eq_map_iff.mpr ⟨fun x => ?_, fun x => ?_, fun x => ?_⟩).symm <;>
    rcases Option.eq_none_or_eq_some (N.op x) with hx | ⟨op, hx⟩
  · rw [hnone x hx, hx]
  · rw [hσ x (by simp [hx])]
  · have hout : ∀ z, N.op z = none → N.outs z = [] := fun z hz =>
      List.eq_nil_iff_forall_not_mem.mpr fun y hy => (h.outs z y hy).1 hz
    rw [hout x hx, hout _ (hnone x hx), List.map_nil]
  · rw [hσ x (by simp [hx]), hlist _ fun y hy => (h.outs x y hy).2]
  · have hin : ∀ z, N.op z = none → N.ins z = [] := fun z hz =>
      List.eq_nil_iff_forall_not_mem.mpr fun y hy => (h.ins z y hy).1 hz
    rw [hin x hx, hin _ (hnone x hx), List.map_nil]
  · rw [hσ x (by simp [hx]), hlist _ fun y hy => (h.ins x y hy).2]

/-! ## The same net up to the keys of filters -/

/-- The keys of filters were exchanged, and those without operator. -/
structure Renames (φ : Equiv.Perm NodeId) (N M : Net) : Prop where
  eq : M = N.map φ
  fixes : ∀ x op, N.op x = some op → op.type ≠ .filter → φ x = x

/-- The nets differ in the keys of their filters only. -/
def Same (N M : Net) : Prop := ∃ φ, Renames φ N M

theorem Renames.op_fixed {op : Operator} (h : Renames φ N M) (hop : N.op x = some op)
    (ht : op.type ≠ .filter) : M.op x = some op := by
  rw [h.eq]
  conv_lhs => rw [← h.fixes x op hop ht]
  rw [op_map, hop]

theorem Renames.symm (h : Renames φ N M) : Renames φ⁻¹ M N := by
  refine ⟨?_, fun x op hop ht => ?_⟩
  · rw [h.eq, map_map, inv_mul_cancel, map_one]
  · rw [h.eq] at hop
    have hx := h.fixes (φ.symm x) op hop ht
    rw [φ.apply_symm_apply] at hx
    exact hx.symm

theorem Renames.trans (h : Renames φ N M) (h' : Renames ψ M K) : Renames (ψ * φ) N K := by
  refine ⟨by rw [h'.eq, h.eq, map_map], fun x op hop ht => ?_⟩
  have hx := h.fixes x op hop ht
  rw [Equiv.Perm.mul_apply, hx, h'.fixes x op (h.op_fixed hop ht) ht]

theorem Renames.one : Renames 1 N N := ⟨map_one.symm, fun _ _ _ _ => rfl⟩

theorem Same.refl : Same N N := ⟨1, .one⟩

theorem Same.symm (h : Same N M) : Same M N := h.elim fun _ h => ⟨_, h.symm⟩

theorem Same.trans (h : Same N M) (h' : Same M K) : Same N K := by
  obtain ⟨φ, h⟩ := h
  obtain ⟨ψ, h'⟩ := h'
  exact ⟨_, h.trans h'⟩

end Net

namespace Plan

variable {p q : Plan} {x y u : NodeId} {φ : Equiv.Perm NodeId} {name : Option String} {f : Formula}

/-- The net of a plan. -/
def net (p : Plan) : Net := ⟨p.core?, p.graph.successors, p.graph.predecessors⟩

@[simp] theorem op_net : p.net.op x = p.core? x := rfl

@[simp] theorem outs_net : p.net.outs x = p.graph.successors x := rfl

@[simp] theorem ins_net : p.net.ins x = p.graph.predecessors x := rfl

theorem Alike.net_eq (h : Alike p q) : q.net = p.net := by
  refine Net.ext ?_ ?_ ?_ <;> funext x
  · exact h.core?
  · exact h.successors x
  · exact h.predecessors x

theorem core?_ne_none : p.core? x ≠ none ↔ p.graph.contains x = true := by
  rw [contains_eq_core?, Option.isSome_iff_ne_none]

theorem closed_net (hp : p.graph.WellFormed) : p.net.Closed where
  outs x y hy :=
    ⟨core?_ne_none.mpr (contains_of_mem_successors hy), core?_ne_none.mpr (hp.target hy)⟩
  ins x y hy := by
    have hy := (hp.edge y x).mpr hy
    exact ⟨core?_ne_none.mpr (hp.target hy), core?_ne_none.mpr (contains_of_mem_successors hy)⟩

/-- Plans whose nets differ in keys only are isomorphic. -/
theorem isomorphism_of_map (h : q.net = p.net.map φ) :
    Isomorphism (fun a b : Operator => b.core = a.core) p.graph q.graph φ := by
  obtain ⟨hop, houts, hins⟩ := Net.eq_map_iff.mp h
  have hcontains : ∀ x, q.graph.contains (φ x) = p.graph.contains x := fun x => by
    rw [contains_eq_core?, contains_eq_core?, ← op_net, ← op_net, hop]
  refine ⟨⟨fun x hx => (hcontains x).trans hx, φ.injective.injOn, fun y hy => ?_⟩, fun x c hc => ?_,
    fun x _ => houts x, fun x _ => hins x⟩
  · refine ⟨φ.symm y, ?_, φ.apply_symm_apply y⟩
    have := hcontains (φ.symm y)
    rw [φ.apply_symm_apply] at this
    exact this.symm.trans hy
  · have hcore := hop x
    rw [op_net, op_net, Plan.core?, Plan.core?, show p.operator? x = some c from hc] at hcore
    exact Option.map_eq_some_iff.mp hcore

end Plan

end Dataflow

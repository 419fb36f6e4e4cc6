import Dataflow.Proofs.Rescan.Descent
import Dataflow.Proofs.Rescan.Net
import Mathlib.GroupTheory.Perm.Support

/-!
# The order in which filters are moved up

Moving a filter up exchanges it with one operator after the other: what it amounts to is a
permutation of places (`climb`). Whether a filter is fit to be moved in front of an operator, and
what becomes of it there, is given once and for all here (`Fitness`). Then filters behind different
operators are moved independently of each other, and of those behind the same operator the first one
that is fit comes first, so that all orders lead to the same (`confluent_moves`).
-/

namespace Dataflow

open Dataflow.Graph

namespace Net

variable {N M K : Net} {φ : Equiv.Perm NodeId} {x y z F F' G G' a : NodeId}
  {path path' : List NodeId}
  {op op' : Operator} {name : Option String} {f : Formula} {fit : Formula → Prop}
  {rank : NodeId → Nat}

/-- Each of the listed operators in turn changes places with `G`, the last one first. -/
def climb (G : NodeId) : List NodeId → Equiv.Perm NodeId
  | [] => 1
  | x :: path => Equiv.swap x G * climb G path

/-- The operators on the path are where those after them were, and `G` is where the first was. What
`G` does changes, too. -/
def move (N : Net) (path : List NodeId) (G : NodeId) (op : Operator) : Net where
  op := Function.update N.op G (some op)
  outs x := (N.outs ((climb G path).symm x)).map (climb G path)
  ins x := (N.ins ((climb G path).symm x)).map (climb G path)

/-- From `x` on each operator leads to the next one only, up to `G`. All behind `x` but `G` are
filters that are not fit. -/
inductive Climb (N : Net) (fit : Formula → Prop) (G : NodeId) : NodeId → List NodeId → Prop
  | last {x : NodeId} : N.outs x = [G] → N.ins G = [x] → Climb N fit G x [x]
  | step {x y : NodeId} {name : Option String} {f : Formula} {path : List NodeId} : N.outs x = [y] →
      N.ins y = [x] → N.IsFilter y name f → ¬fit f → Climb N fit G y path →
      Climb N fit G x (x :: path)

theorem op_move_self : (N.move path G op).op G = some op := Function.update_self ..

theorem op_move_of_ne (hx : x ≠ G) : (N.move path G op).op x = N.op x :=
    Function.update_of_ne hx _ _

/-! ## Places -/

theorem climb_of_notMem (hG : z ≠ G) (hz : z ∉ path) : climb G path z = z := by
  induction path with
  | nil => rfl
  | cons x path ih =>
    rw [List.mem_cons, not_or] at hz
    obtain ⟨hx, hpath⟩ := hz
    rw [climb, Equiv.Perm.mul_apply, ih hpath, Equiv.swap_apply_of_ne_of_ne hx hG]

theorem climb_map : climb (φ G) (path.map φ) (φ z) = φ (climb G path z) := by
  induction path with
  | nil => rfl
  | cons x path ih =>
    rw [List.map_cons, climb, climb, Equiv.Perm.mul_apply, Equiv.Perm.mul_apply, ih,
      φ.injective.map_swap]

theorem climb_map_symm : (climb (φ G) (path.map φ)).symm (φ z) = φ ((climb G path).symm z) := by
  rw [Equiv.symm_apply_eq, climb_map, Equiv.apply_symm_apply]

theorem map_move : (N.move path G op).map φ = (N.map φ).move (path.map φ) (φ G) op := by
  have hlist : ∀ l : List NodeId, (l.map φ).map (climb (φ G) (path.map φ)) =
      (l.map (climb G path)).map φ := fun l => by
    rw [List.map_map, List.map_map]
    exact List.map_congr_left fun _ _ => climb_map
  refine (eq_map_iff.mpr ⟨fun x => ?_, fun x => ?_, fun x => ?_⟩).symm
  · simp only [move, Function.update_apply, φ.injective.eq_iff, op_map]
  · simp only [move, climb_map_symm, outs_map, hlist]
  · simp only [move, climb_map_symm, ins_map, hlist]

/-- Moves that have nothing in common can be made in any order. -/
theorem move_comm (hne : G ≠ G') (h : ∀ z, climb G path z = z ∨ climb G' path' z = z) :
    (N.move path G op).move path' G' op' = (N.move path' G' op').move path G op := by
  have hcomm : climb G path * climb G' path' = climb G' path' * climb G path :=
    Equiv.Perm.Disjoint.commute h
  have hsymm : ∀ z, (climb G path).symm ((climb G' path').symm z) =
      (climb G' path').symm ((climb G path).symm z) := fun z => by
    have := congrArg (fun σ : Equiv.Perm NodeId => σ.symm z) hcomm
    exact this.symm
  have hlist : ∀ l : List NodeId, (l.map (climb G path)).map (climb G' path') =
      (l.map (climb G' path')).map (climb G path) := fun l => by
    rw [List.map_map, List.map_map]
    exact List.map_congr_left fun z _ =>
      (congrArg (fun σ : Equiv.Perm NodeId => σ z) hcomm).symm
  refine Net.ext ?_ ?_ ?_
  · exact Function.update_comm hne _ _ _
  · funext z
    simp only [move, hsymm, hlist]
  · funext z
    simp only [move, hsymm, hlist]

/-! ## Paths -/

/-- The operator is not a filter, or it is one with a single input, which is behind it. -/
inductive Behind (N : Net) (r : NodeId) : NodeId → Prop
  | self : (∀ name f, ¬N.IsFilter r name f) → Behind N r r
  | filter {x y : NodeId} {name : Option String} {f : Formula} : N.IsFilter x name f →
      N.ins x = [y] → Behind N r y → Behind N r x

theorem Behind.unique {r s : NodeId} (h : N.Behind r x) (h' : N.Behind s x) : r = s := by
  induction h with
  | self hr =>
    cases h' with
    | self => rfl
    | filter hx => exact absurd hx (hr _ _)
  | filter hx hins _ ih =>
    cases h' with
    | self hs => exact absurd hx (hs _ _)
    | filter _ hins' h' =>
      obtain rfl := List.singleton_inj.mp (hins.symm.trans hins')
      exact ih h'

namespace Climb

theorem mem_self (h : N.Climb fit G x path) : x ∈ path := by
  cases h <;> simp

theorem exists_last (h : N.Climb fit G x path) : ∃ a ∈ path, N.outs a = [G] := by
  induction h with
  | last houts _ => exact ⟨_, by simp, houts⟩
  | step _ _ _ _ _ ih =>
    obtain ⟨a, ha, houts⟩ := ih
    exact ⟨a, by simp [ha], houts⟩

theorem filter_of_mem (h : N.Climb fit G x path) (hz : z ∈ path) (hzx : z ≠ x) :
    ∃ name f, N.IsFilter z name f := by
  induction h with
  | last => simp [hzx] at hz
  | @step x y name f path _ _ hy _ _ ih =>
    have hz : z ∈ path := by simpa [hzx] using hz
    by_cases hzy : z = y
    · exact ⟨name, f, hzy ▸ hy⟩
    · exact ih hz hzy

/-- What is behind the first operator has an input. -/
theorem ins_ne_nil (h : N.Climb fit G x path) (hz : z = G ∨ z ∈ path) (hzx : z ≠ x) :
    N.ins z ≠ [] := by
  induction h with
  | @last x _ hins =>
    rcases hz with rfl | hz
    · simp [hins]
    · simp [hzx] at hz
  | @step x y _ _ path _ hins _ _ _ ih =>
    by_cases hzy : z = y
    · simp [hzy, hins]
    · exact ih (hz.imp_right fun hz => by simpa [hzx] using hz) hzy

/-- All on the path are behind the operator with which it begins. -/
theorem behind {r : NodeId} (h : N.Climb fit G x path) (hx : N.Behind r x)
    (hG : N.IsFilter G name f) : ∀ z, z = G ∨ z ∈ path → N.Behind r z := by
  induction h with
  | @last x houts hins =>
    rintro z (rfl | hz)
    · exact .filter hG hins hx
    · obtain rfl := List.mem_singleton.mp hz
      exact hx
  | @step x y _ _ path houts hins hy hnot _ ih =>
    rintro z (rfl | hz)
    · exact ih (.filter hy hins hx) _ (.inl rfl)
    · rcases List.mem_cons.mp hz with rfl | hz
      · exact hx
      · exact ih (.filter hy hins hx) z (.inr hz)

/-- The first filter that is fit is the only one to which the path can lead. -/
theorem unique (h : N.Climb fit G x path) {g : Formula} {name' : Option String}
    (hG : N.IsFilter G name f) (hf : fit f) (h' : N.Climb fit G' x path')
    (hG' : N.IsFilter G' name' g) (hg : fit g) : G = G' ∧ path = path' := by
  have hsame : ∀ {z n m : _} {f g : Formula}, N.IsFilter z n f → N.IsFilter z m g → f = g := by
    intro z n m f g h h'
    have heq := h.symm.trans h'
    simp only [Option.some.injEq, Operator.mk.injEq, Operation.filter.injEq] at heq
    exact heq.2.1
  induction h generalizing path' with
  | last houts =>
    cases h' with
    | last houts' => exact ⟨List.singleton_inj.mp (houts.symm.trans houts'), rfl⟩
    | step houts' _ hy hnot =>
      obtain rfl := List.singleton_inj.mp (houts.symm.trans houts')
      exact absurd (hsame hG hy ▸ hf) hnot
  | step houts _ hy hnot _ ih =>
    cases h' with
    | last houts' =>
      obtain rfl := List.singleton_inj.mp (houts.symm.trans houts')
      exact absurd (hsame hG' hy ▸ hg) hnot
    | step houts' _ _ _ h' =>
      obtain rfl := List.singleton_inj.mp (houts.symm.trans houts')
      obtain ⟨rfl, rfl⟩ := ih h'
      exact ⟨rfl, rfl⟩

theorem map (h : N.Climb fit G x path) : (N.map φ).Climb fit (φ G) (φ x) (path.map φ) := by
  induction h with
  | last houts hins =>
    exact .last (by rw [outs_map, houts, List.map_singleton])
      (by rw [ins_map, hins, List.map_singleton])
  | step houts hins hy hnot _ ih =>
    exact .step (by rw [outs_map, houts, List.map_singleton])
      (by rw [ins_map, hins, List.map_singleton]) (op_map.trans hy) hnot ih

/-- A path is a matter of what is on it. -/
theorem congr (h : N.Climb fit G x path) (hsame : ∀ z, z = G ∨ z ∈ path →
    M.op z = N.op z ∧ (∀ y, N.outs z = [y] → y = G ∨ y ∈ path → M.outs z = [y]) ∧
      ∀ y, N.ins z = [y] → y ∈ path → M.ins z = [y]) : M.Climb fit G x path := by
  induction h with
  | @last x houts hins =>
    exact .last ((hsame x (by simp)).2.1 G houts (.inl rfl))
      ((hsame G (.inl rfl)).2.2 x hins (by simp))
  | @step x y _ _ path houts hins hy hnot hrest ih =>
    have hself := hrest.mem_self
    refine .step ((hsame x (by simp)).2.1 y houts (.inr (by simp [hself])))
      ((hsame y (.inr (by simp [hself]))).2.2 x hins (by simp))
      ((hsame y (.inr (by simp [hself]))).1.trans hy) hnot (ih fun z hz => ?_)
    obtain ⟨hop, houts, hins⟩ := hsame z (hz.imp_right (List.mem_cons_of_mem _))
    exact ⟨hop, fun v hv hvG => houts v hv (hvG.imp_right (List.mem_cons_of_mem _)),
      fun v hv hvp => hins v hv (List.mem_cons_of_mem _ hvp)⟩

/-- A path stays where another one with nothing in common is moved along. -/
theorem move (h : N.Climb fit G x path) (hapart : ∀ z, z = G ∨ z ∈ path → z ≠ G' ∧ z ∉ path') :
    (N.move path' G' op).Climb fit G x path := by
  have hfix : ∀ z, z = G ∨ z ∈ path → climb G' path' z = z := fun z hz =>
    climb_of_notMem (hapart z hz).1 (hapart z hz).2
  have hsymm : ∀ z, z = G ∨ z ∈ path → (climb G' path').symm z = z := fun z hz => by
    rw [Equiv.symm_apply_eq, hfix z hz]
  refine h.congr fun z hz => ⟨op_move_of_ne (hapart z hz).1, fun y hy hyp => ?_,
    fun y hy hyp => ?_⟩
  · simp only [Net.move, hsymm z hz, hy, List.map_singleton, hfix y hyp]
  · simp only [Net.move, hsymm z hz, hy, List.map_singleton, hfix y (.inr hyp)]

end Climb

/-! ## Edges -/

/-- Edges are noted at both ends and lead upwards. -/
structure Ranked (N : Net) (rank : NodeId → Nat) : Prop where
  edge : ∀ a b, b ∈ N.outs a ↔ a ∈ N.ins b
  up : ∀ a b, b ∈ N.outs a → rank a < rank b

theorem Ranked.notMem (h : N.Ranked rank) (hle : rank y ≤ rank x) : y ∉ N.outs x ∧ x ∉ N.ins y :=
  ⟨fun hmem => absurd (h.up _ _ hmem) (by omega),
    fun hmem => absurd (h.up _ _ ((h.edge _ _).mpr hmem)) (by omega)⟩

theorem map_swap_of_notMem {l : List NodeId} (hx : x ∉ l) (hy : y ∉ l) :
    l.map (Equiv.swap x y) = l := by
  conv_rhs => rw [← List.map_id l]
  refine List.map_congr_left fun z hz => Equiv.swap_apply_of_ne_of_ne ?_ ?_
  · rintro rfl
    exact hx hz
  · rintro rfl
    exact hy hz

theorem map_swap_eq_renamed {l : List NodeId} (hy : y ∉ l) :
    l.map (Equiv.swap x y) = l.map (renamed x y) := by
  refine List.map_congr_left fun z hz => ?_
  by_cases hzx : z = x
  · rw [hzx, Equiv.swap_apply_left, renamed_self]
  · rw [renamed_of_ne hzx, Equiv.swap_apply_of_ne_of_ne hzx]
    rintro rfl
    exact hy hz

theorem outs_move_cons : (N.move (x :: path) G op).outs z =
    ((N.move path G op).outs (Equiv.swap x G z)).map (Equiv.swap x G) := by
  simp only [move, climb, Equiv.Perm.mul_def, Equiv.symm_trans_apply, Equiv.symm_swap, List.map_map]
  rfl

theorem ins_move_cons : (N.move (x :: path) G op).ins z =
    ((N.move path G op).ins (Equiv.swap x G z)).map (Equiv.swap x G) := by
  simp only [move, climb, Equiv.Perm.mul_def, Equiv.symm_trans_apply, Equiv.symm_swap, List.map_map]
  rfl

@[simp] theorem outs_move_nil : (N.move [] G op).outs z = N.outs z := by
  simp [move, climb, show (1 : Equiv.Perm NodeId).symm = 1 from rfl]

@[simp] theorem ins_move_nil : (N.move [] G op).ins z = N.ins z := by
  simp [move, climb, show (1 : Equiv.Perm NodeId).symm = 1 from rfl]

/-- The edges after a move past a single operator. -/
theorem edges_past (hN : N.Ranked rank) (houts : N.outs a = [G]) (hins : N.ins G = [a])
    (z : NodeId) :
    ((N.move [a] G op).outs z = if z = G then [a] else if z = a then N.outs G
      else (N.outs z).map (renamed a G)) ∧
    (N.move [a] G op).ins z = if z = G then N.ins a else if z = a then [G]
      else (N.ins z).map (renamed G a) := by
  have hlt := hN.up a G (by simp [houts])
  rw [outs_move_cons, ins_move_cons, outs_move_nil, ins_move_nil]
  by_cases hzG : z = G
  · rw [if_pos hzG, if_pos hzG, hzG, Equiv.swap_apply_right, houts, List.map_singleton,
      Equiv.swap_apply_right]
    exact ⟨rfl, map_swap_of_notMem (hN.notMem (Nat.le_refl _)).2 (hN.notMem (by omega)).2⟩
  rw [if_neg hzG, if_neg hzG]
  by_cases hza : z = a
  · rw [if_pos hza, if_pos hza, hza, Equiv.swap_apply_left, hins, List.map_singleton,
      Equiv.swap_apply_left]
    exact ⟨map_swap_of_notMem (hN.notMem (by omega)).1 (hN.notMem (Nat.le_refl _)).1, rfl⟩
  · rw [if_neg hza, if_neg hza, Equiv.swap_apply_of_ne_of_ne hza hzG]
    refine ⟨map_swap_eq_renamed fun hmem => hza ?_, ?_⟩
    · simpa [hins] using (hN.edge z G).mp hmem
    · rw [Equiv.swap_comm, map_swap_eq_renamed fun hmem => hzG ?_]
      simpa [houts] using (hN.edge a z).mpr hmem

namespace Climb

theorem rank_of_mem (h : N.Climb fit G x path) (hN : N.Ranked rank) (hz : z ∈ path) :
    rank x ≤ rank z ∧ rank z < rank G := by
  induction h generalizing z with
  | last houts =>
    obtain rfl := List.mem_singleton.mp hz
    exact ⟨Nat.le_refl _, hN.up _ _ (by simp [houts])⟩
  | @step x y _ _ path houts _ _ _ hrest ih =>
    have hxy := hN.up x y (by simp [houts])
    rcases List.mem_cons.mp hz with rfl | hz
    · exact ⟨Nat.le_refl _, Nat.lt_trans hxy (ih hrest.mem_self).2⟩
    · obtain ⟨hle, hlt⟩ := ih hz
      exact ⟨by omega, hlt⟩

theorem last_mem (h : N.Climb fit G x path) (hN : N.Ranked rank) (ha : N.outs a = [G]) :
    a ∈ path ∧ N.ins G = [a] := by
  have hmem := (hN.edge a G).mp (by simp [ha])
  induction h with
  | last _ hins =>
    obtain rfl : a = _ := by simpa [hins] using hmem
    exact ⟨by simp, hins⟩
  | step _ _ _ _ _ ih =>
    exact ⟨List.mem_cons_of_mem _ ih.1, ih.2⟩

/-- The edges after a move: `G` stands in front of `x`, and what led to it leads to what it led
to. -/
theorem edges (h : N.Climb fit G x path) (hN : N.Ranked rank) (ha : N.outs a = [G]) (z : NodeId) :
    ((N.move path G op).outs z = if z = G then [x] else if z = a then N.outs G
      else (N.outs z).map (renamed x G)) ∧
    (N.move path G op).ins z = if z = G then N.ins x else if z = x then [G]
      else (N.ins z).map (renamed G a) := by
  induction h generalizing z with
  | @last x houts hins =>
    obtain rfl : a = x := by
      have := (hN.edge a G).mp (by simp [ha])
      simpa [hins] using this
    exact edges_past hN houts hins z
  | @step x y _ _ path houts hins _ _ hrest ih =>
    obtain ⟨hamem, -⟩ := hrest.last_mem hN ha
    have hxy := hN.up x y (by simp [houts])
    obtain ⟨hya, haG⟩ := hrest.rank_of_mem hN hamem
    have hneG : x ≠ G := by rintro rfl; omega
    have hnea : x ≠ a := by rintro rfl; omega
    have hney : x ≠ y := by rintro rfl; omega
    have hyG : y ≠ G := by rintro rfl; omega
    have haG' : a ≠ G := by rintro rfl; omega
    have hyonly : ∀ {z}, y ∈ N.outs z → z = x := fun hmem => by
      simpa [hins] using (hN.edge _ y).mp hmem
    have hxonly : ∀ {z}, x ∈ N.ins z → z = y := fun hmem => by
      simpa [houts] using (hN.edge x _).mpr hmem
    rw [outs_move_cons, ins_move_cons]
    by_cases hzG : z = G
    · rw [if_pos hzG, if_pos hzG, hzG, Equiv.swap_apply_right, (ih x).1, (ih x).2, if_neg hneG,
        if_neg hneG, if_neg hnea, if_neg hney, houts, List.map_singleton, renamed_self,
        List.map_singleton, Equiv.swap_apply_right, map_renamed_of_notMem (hN.notMem (by omega)).2]
      exact ⟨rfl, map_swap_of_notMem (hN.notMem (Nat.le_refl _)).2 (hN.notMem (by omega)).2⟩
    rw [if_neg hzG, if_neg hzG]
    by_cases hzx : z = x
    · rw [if_neg (hzx ▸ hnea), if_pos hzx, hzx, Equiv.swap_apply_left, (ih G).1, (ih G).2,
      if_pos rfl,
        if_pos rfl, houts, hins, List.map_singleton, List.map_singleton, List.map_singleton,
        Equiv.swap_apply_left, renamed_of_ne (Ne.symm hney),
        Equiv.swap_apply_of_ne_of_ne (Ne.symm hney) hyG]
      exact ⟨rfl, rfl⟩
    rw [if_neg hzx, Equiv.swap_apply_of_ne_of_ne hzx hzG, (ih z).1, (ih z).2, if_neg hzG,
      if_neg hzG]
    constructor
    · by_cases hza : z = a
      · rw [if_pos hza, if_pos hza]
        exact map_swap_of_notMem (hN.notMem (by omega)).1 (hN.notMem (Nat.le_refl _)).1
      · rw [if_neg hza, if_neg hza, map_renamed_of_notMem fun hmem => hzx (hyonly hmem)]
        refine map_swap_eq_renamed fun hmem => hza ?_
        simpa [(hrest.last_mem hN ha).2] using (hN.edge z G).mp hmem
    · by_cases hzy : z = y
      · rw [if_pos hzy, hzy, hins, List.map_singleton, List.map_singleton, renamed_of_ne hneG,
          Equiv.swap_apply_right]
      · rw [if_neg hzy]
        refine map_swap_of_notMem (fun hmem => ?_) fun hmem => ?_
        · exact hzy (hxonly (mem_of_mem_map_renamed hmem hnea).1)
        · exact (mem_of_mem_map_renamed hmem (Ne.symm haG')).2 rfl

end Climb

/-! ## Moves -/

/-- What is known of moving filters in front of an operator: whether a filter by a formula is fit
for it, and by which formula it is a filter there. -/
structure Crossing where
  fit : NodeId → Formula → Prop
  moved : NodeId → Formula → Formula

/-- Behind a `ForEach` the first filter that is fit is moved in front of it. -/
def Moves (C : Crossing) (N M : Net) : Prop :=
  ∃ F opF G path name f, N.op F = some opF ∧ opF.type = .forEach ∧ N.Climb (C.fit F) G F path ∧
    N.IsFilter G name f ∧ C.fit F f ∧
      M = N.move path G { name, operation := .filter (C.moved F f) }

variable {C : Crossing}

theorem behind_self {r : NodeId} (hop : N.op r = some op) (ht : op.type = .forEach) :
    N.Behind r r :=
  .self fun name f hf => by
    rw [IsFilter, hop, Option.some.injEq] at hf
    rw [hf] at ht
    cases ht

theorem moves_again (hsame : Same N M) (h : Moves C N K) : ∃ L, Moves C M L ∧ Same K L := by
  obtain ⟨φ, hφ⟩ := hsame
  obtain ⟨F, opF, G, path, name, f, hF, ht, hclimb, hG, hf, rfl⟩ := h
  have hclimb' := hclimb.map (φ := φ)
  have hne : opF.type ≠ .filter := by simp [ht]
  rw [hφ.fixes F opF hF hne, ← hφ.eq] at hclimb'
  have hG' : M.IsFilter (φ G) name f := by
    rw [hφ.eq]
    exact op_map.trans hG
  refine ⟨_, ⟨F, opF, φ G, path.map φ, name, f, hφ.op_fixed hF hne, ht, hclimb', hG', hf, rfl⟩,
    φ, ?_,
    fun x op hop ht => ?_⟩
  · rw [map_move, hφ.eq]
  · by_cases hx : x = G
    · rw [hx, op_move_self, Option.some.injEq] at hop
      exact absurd (by rw [← hop]; rfl) ht
    · exact hφ.fixes x op (by rwa [op_move_of_ne hx] at hop) ht

theorem moves_commute (h : Moves C N M) (h' : Moves C N K) :
    Same M K ∨ ∃ L L', Moves C M L ∧ Moves C K L' ∧ Same L L' := by
  obtain ⟨F, opF, G, path, name, f, hF, ht, hclimb, hG, hf, rfl⟩ := h
  obtain ⟨F', opF', G', path', name', f', hF', ht', hclimb', hG', hf', rfl⟩ := h'
  by_cases hFF' : F = F'
  · subst hFF'
    obtain ⟨rfl, rfl⟩ := hclimb.unique hG hf hclimb' hG' hf'
    have heq := hG.symm.trans hG'
    simp only [Option.some.injEq, Operator.mk.injEq, Operation.filter.injEq] at heq
    obtain ⟨rfl, rfl, -⟩ := heq
    exact .inl .refl
  -- an operator is behind one only
  have hbehind := hclimb.behind (behind_self hF ht) hG
  have hbehind' := hclimb'.behind (behind_self hF' ht') hG'
  have hapart : ∀ z, z = G ∨ z ∈ path → z ≠ G' ∧ z ∉ path' := fun z hz =>
    ⟨fun h => hFF' ((hbehind z hz).unique (hbehind' z (.inl h))),
      fun h => hFF' ((hbehind z hz).unique (hbehind' z (.inr h)))⟩
  have hapart' : ∀ z, z = G' ∨ z ∈ path' → z ≠ G ∧ z ∉ path := fun z hz =>
    ⟨fun h => hFF' ((hbehind z (.inl h)).unique (hbehind' z hz)),
      fun h => hFF' ((hbehind z (.inr h)).unique (hbehind' z hz))⟩
  refine .inr ⟨_, _, ⟨F', opF', G', path', name', f', ?_, ht', hclimb'.move hapart', ?_, hf', rfl⟩,
    ⟨F, opF, G, path, name, f, ?_, ht, hclimb.move hapart, ?_, hf, rfl⟩, ?_⟩
  · rw [op_move_of_ne (hapart' F' (.inr hclimb'.mem_self)).1, hF']
  · rw [IsFilter, op_move_of_ne (hapart' G' (.inl rfl)).1]
    exact hG'
  · rw [op_move_of_ne (hapart F (.inr hclimb.mem_self)).1, hF]
  · rw [IsFilter, op_move_of_ne (hapart G (.inl rfl)).1]
    exact hG
  · rw [move_comm (hapart G (.inl rfl)).1 fun z => ?_]
    · exact .refl
    · by_cases hz : z = G ∨ z ∈ path
      · exact .inr (climb_of_notMem (hapart z hz).1 (hapart z hz).2)
      · rw [not_or] at hz
        exact .inl (climb_of_notMem hz.1 hz.2)

/-- All ways to move filters up lead to the same. -/
theorem confluent_moves (C : Crossing) : Confluent (Moves C) Same where
  refl _ := .refl
  symm h := h.symm
  trans h h' := h.trans h'
  again := moves_again
  commute := moves_commute

end Net

end Dataflow

import Dataflow.Engine.Relation
import Dataflow.Proofs.Lists
import Dataflow.Proofs.Value.Order

/-!
# Distinct rows

Beside the rows that are kept stands an index, the same rows in ascending order, in which the next
row is looked up. In an index the rows below a row stand before all others, so that halving finds
the last row that is not above it (`isLastBelow_lastBelow`): a row is left out exactly if it equals
one of the index, and otherwise its place leaves the index ascending (`Index.insert`). As the index
has an equal row for every row that was met, the rows kept are those that differ from every earlier
row. All this needs is that the rows are ordered as in a total preorder (`Comparable`); without
floating-point numbers they are.
-/

namespace Dataflow

open Value

/-! ## Rows that can be compared -/

/-- Whether a value is a floating-point number. -/
def Value.isFloating : Value → Bool
  | .float _ | .double _ => true
  | _ => false

namespace Relation

variable {row a b c : Row} {rel rel' met seen rest : Relation} {rows : Array Row}
  {i j base size : Nat}

/-- The rows are ordered as in a total preorder. -/
def Comparable (rel : Relation) : Prop :=
  ∀ a ∈ rel, ∀ b ∈ rel, ∀ c ∈ rel, Concordant (orderRows a b) (orderRows b c) (orderRows a c)

namespace Comparable

theorem subset (h : Comparable rel) (hsub : rel' ⊆ rel) : Comparable rel' :=
  fun a ha b hb c hc => h a (hsub ha) b (hsub hb) c (hsub hc)

theorem lt_trans (h : Comparable rel) (ha : a ∈ rel) (hb : b ∈ rel) (hc : c ∈ rel)
    (hab : orderRows a b = .lt) (hbc : orderRows b c = .lt) : orderRows a c = .lt :=
  ((h a ha b hb c hc).same (hab.trans hbc.symm)).trans hab

theorem eq_trans (h : Comparable rel) (ha : a ∈ rel) (hb : b ∈ rel) (hc : c ∈ rel)
    (hab : orderRows a b = .eq) (hbc : orderRows b c = .eq) : orderRows a c = .eq :=
  ((h a ha b hb c hc).left hab).trans hbc

theorem lt_of_lt_of_ne_gt (h : Comparable rel) (ha : a ∈ rel) (hb : b ∈ rel) (hc : c ∈ rel)
    (hab : orderRows a b = .lt) (hbc : orderRows b c ≠ .gt) : orderRows a c = .lt := by
  cases hcmp : orderRows b c with
  | lt => exact h.lt_trans ha hb hc hab hcmp
  | eq => exact ((h a ha b hb c hc).right hcmp).trans hab
  | gt => exact absurd hcmp hbc

end Comparable

theorem fraction?_eq_none {v : Value} (h : v.isFloating = false) : v.fraction? = none := by
  cases v <;> first | rfl | cases h

/-- Without floating-point numbers there is no fraction that two whole numbers could be rounded
to. -/
theorem comparable_of_not_floating
    (h : ∀ row ∈ rel, ∀ v ∈ rowLeaves row, v.isFloating = false) : Comparable rel := by
  intro a ha b hb c hc
  have hsharp : Sharp (rowLeaves a ++ rowLeaves b ++ rowLeaves c) := by
    intro x hx
    obtain ⟨v, hv, hvx⟩ := List.mem_filterMap.mp hx
    simp only [List.mem_append] at hv
    have hfloating : v.isFloating = false := by
      rcases hv with (hv | hv) | hv
      · exact h a ha v hv
      · exact h b hb v hv
      · exact h c hc v hv
    rw [fraction?_eq_none hfloating] at hvx
    cases hvx
  refine concordant_orderRows hsharp a b c ?_ ?_ ?_ <;> simp

/-! ## Looking a row up -/

/-- The rows below the given one stand before all others. -/
def Around (rows : Array Row) (row : Row) : Prop :=
  ∀ i j (hij : i < j) (hj : j < rows.size),
    orderRows rows[j] row ≠ .gt → orderRows rows[i] row = .lt

/-- At `i` stands the last row that is not above the given one, or the first row. -/
structure IsLastBelow (rows : Array Row) (row : Row) (i : Nat) : Prop where
  lt : i < rows.size
  below : i = 0 ∨ orderRows rows[i] row ≠ .gt
  above : ∀ j (hj : j < rows.size), i < j → orderRows rows[j] row = .gt

/-- What is looked for lies among the `size` places from `base` on, and stays there when they are
halved. -/
theorem isLastBelow_lastBelow (h : Around rows row) (hsize : 0 < size)
    (hend : base + size ≤ rows.size) (hbelow : base = 0 ∨ orderRows rows[base] row ≠ .gt)
    (habove : ∀ j (hj : j < rows.size), base + size ≤ j → orderRows rows[j] row = .gt) :
    IsLastBelow rows row (lastBelow rows row base size) := by
  induction size using Nat.strongRecOn generalizing base with
  | ind size ih =>
    unfold lastBelow
    by_cases hle : size ≤ 1
    · rw [if_pos hle]
      exact ⟨by omega, hbelow, fun j hj hlt => habove j hj (by omega)⟩
    · have hmid : base + size / 2 < rows.size := by omega
      have hget : rows.getD (base + size / 2) [] = rows[base + size / 2] := by
        rw [Array.getD_eq_getD_getElem?, Array.getElem?_eq_getElem hmid, Option.getD_some]
      simp only [if_neg hle, hget, beq_iff_eq]
      by_cases hgt : orderRows rows[base + size / 2] row = .gt
      · rw [if_pos hgt]
        refine ih _ (by omega) (by omega) (by omega) hbelow fun j hj hlt => ?_
        by_contra hne
        rcases Nat.lt_or_eq_of_le (show base + size / 2 ≤ j by omega) with hmj | rfl
        · rw [h _ j hmj hj hne] at hgt
          cases hgt
        · exact hne hgt
      · rw [if_neg hgt]
        exact ih _ (by omega) (by omega) (by omega) (.inr hgt) fun j hj hlt =>
          habove j hj (by omega)

/-- A row has no place if an equal one is there, else a place behind the rows below it and before
those above it. -/
theorem place?_spec (h : Around rows row) :
    (place? rows row = none ∧ ∃ s ∈ rows, orderRows s row = .eq) ∨
      ∃ i ≤ rows.size, place? rows row = some i ∧
        ∀ j (hj : j < rows.size), orderRows rows[j] row = if j < i then .lt else .gt := by
  by_cases hempty : rows.size = 0
  · obtain rfl : rows = #[] := Array.eq_empty_of_size_eq_zero hempty
    exact .inr ⟨0, Nat.le_refl _, rfl, fun j hj => absurd hj (Nat.not_lt_zero j)⟩
  · have hlast : IsLastBelow rows row (lastBelow rows row 0 rows.size) :=
      isLastBelow_lastBelow h (by omega) (by omega) (.inl rfl) fun j hj hle => by omega
    obtain ⟨hi, hbelow, habove⟩ := hlast
    have hget : rows.getD (lastBelow rows row 0 rows.size) [] =
        rows[lastBelow rows row 0 rows.size] := by
      rw [Array.getD_eq_getD_getElem?, Array.getElem?_eq_getElem hi, Option.getD_some]
    have hne : ¬rows.isEmpty = true := fun hnil => hempty (Array.isEmpty_iff_size_eq_zero.mp hnil)
    rw [place?, if_neg hne]
    dsimp only
    rw [hget]
    generalize lastBelow rows row 0 rows.size = i at hi hbelow habove
    cases hcmp : orderRows rows[i] row with
    | eq => exact .inl ⟨rfl, _, Array.getElem_mem hi, hcmp⟩
    | lt =>
      refine .inr ⟨i + 1, hi, rfl, fun j hj => ?_⟩
      rcases Nat.lt_trichotomy j i with hlt | rfl | hgt
      · rw [if_pos (by omega), h j i hlt hi (by simp [hcmp])]
      · rw [if_pos (by omega), hcmp]
      · rw [if_neg (by omega), habove j hj hgt]
    | gt =>
      obtain rfl : i = 0 := hbelow.resolve_right fun hne => hne hcmp
      refine .inr ⟨0, by omega, rfl, fun j hj => ?_⟩
      rcases Nat.eq_zero_or_pos j with rfl | hpos
      · rw [if_neg (by omega), hcmp]
      · rw [if_neg (by omega), habove j hj hpos]

/-! ## The index -/

/-- The rows of an index ascend, and every row that was met equals one of them. -/
structure Index (met seen : Relation) : Prop where
  ascending : seen.Pairwise fun a b => orderRows a b = .lt
  old : seen ⊆ met
  equal : ∀ row ∈ met, ∃ s ∈ seen, orderRows s row = .eq

namespace Index

variable (h : Index met seen) (hcmp : Comparable (met ++ row :: rest))

include h hcmp

theorem around : Around seen.toArray row := by
  intro i j hij hj hne
  simp only [List.getElem_toArray, List.size_toArray] at hj hne ⊢
  have hmem : ∀ s ∈ seen, s ∈ met ++ row :: rest := fun s hs => List.mem_append_left _ (h.old hs)
  exact hcmp.lt_of_lt_of_ne_gt (hmem _ (List.getElem_mem _)) (hmem _ (List.getElem_mem hj))
    (by simp) (List.pairwise_iff_getElem.mp h.ascending i j _ hj hij) hne

/-- A row that has no place in the index equals one that was met. -/
theorem skip (hplace : place? seen.toArray row = none) :
    (∃ r ∈ met, orderRows r row = .eq) ∧ Index (met ++ [row]) seen := by
  rcases place?_spec (h.around hcmp) with ⟨-, s, hs, heq⟩ | ⟨i, -, hi, -⟩
  · have hs : s ∈ seen := by simpa using hs
    refine ⟨⟨s, h.old hs, heq⟩, h.ascending, List.subset_append_of_subset_left _ h.old, ?_⟩
    intro r hr
    rcases List.mem_append.mp hr with hr | hr
    · exact h.equal r hr
    · exact List.mem_singleton.mp hr ▸ ⟨s, hs, heq⟩
  · rw [hplace] at hi
    cases hi

/-- A row that has a place in the index differs from all that were met, and is put there. -/
theorem insert (hplace : place? seen.toArray row = some i) :
    (∀ r ∈ met, orderRows r row ≠ .eq) ∧ Index (met ++ [row]) (seen.insertIdx i row) := by
  rcases place?_spec (h.around hcmp) with ⟨hnone, -⟩ | ⟨k, hk, hi, hall⟩
  · rw [hplace] at hnone
    cases hnone
  obtain rfl : i = k := Option.some.inj (hplace.symm.trans hi)
  simp only [List.size_toArray, List.getElem_toArray] at hk hall
  have hmet : ∀ r ∈ met, r ∈ met ++ row :: rest := fun r hr => List.mem_append_left _ hr
  have hrow : row ∈ met ++ row :: rest := by simp
  refine ⟨fun r hr heq => ?_,
    Lists.pairwise_insertIdx h.ascending (fun s hs => ?_) (fun s hs => ?_), ?_, ?_⟩
  · obtain ⟨s, hs, hsr⟩ := h.equal r hr
    obtain ⟨j, hj, rfl⟩ := List.getElem_of_mem hs
    have hne := hall j hj
    rw [hcmp.eq_trans (hmet _ (h.old hs)) (hmet r hr) hrow hsr heq] at hne
    split at hne <;> cases hne
  · obtain ⟨j, hj, rfl⟩ := List.getElem_of_mem hs
    rw [List.length_take] at hj
    rw [List.getElem_take, hall j (by omega), if_pos (by omega)]
  · obtain ⟨j, hj, rfl⟩ := List.getElem_of_mem hs
    rw [List.length_drop] at hj
    rw [List.getElem_drop, orderRows_swap, hall (i + j) (by omega), if_neg (by omega)]
    rfl
  · intro s hs
    rcases List.eq_or_mem_of_mem_insertIdx hs with rfl | hs
    · simp
    · exact List.mem_append_left _ (h.old hs)
  · intro r hr
    rcases List.mem_append.mp hr with hr | hr
    · obtain ⟨s, hs, heq⟩ := h.equal r hr
      exact ⟨s, (List.mem_insertIdx hk).mpr (.inr hs), heq⟩
    · rw [List.mem_singleton.mp hr]
      exact ⟨row, (List.mem_insertIdx hk).mpr (.inl rfl), orderRows_self row⟩

end Index

/-! ## The rows that are kept -/

/-- The rows that differ from every earlier row. -/
def firstRows (rel : Relation) : Relation :=
  (rel.zipIdx.filter fun (row, i) => (rel.take i).all fun r => orderRows r row != .eq).map Prod.fst

theorem distinctFrom_eq (hindex : Index met seen) (hcmp : Comparable (met ++ rest)) :
    distinctFrom seen rest = ((rest.zipIdx met.length).filter fun (row, i) =>
      ((met ++ rest).take i).all fun r => orderRows r row != .eq).map Prod.fst := by
  induction rest generalizing met seen with
  | nil => rfl
  | cons row rest ih =>
    have happend : met ++ row :: rest = (met ++ [row]) ++ rest := by simp
    have hlength : met.length + 1 = (met ++ [row]).length := by simp
    rw [distinctFrom, List.zipIdx_cons, List.filter_cons]
    simp only [List.take_left']
    cases hplace : place? seen.toArray row with
    | none =>
      obtain ⟨⟨r, hr, heq⟩, hindex⟩ := hindex.skip hcmp hplace
      have hold : (met.all fun r => orderRows r row != .eq) = false :=
        List.all_eq_false.mpr ⟨r, hr, by simp [heq]⟩
      rw [if_neg (by simp [hold]), hlength, happend]
      exact ih hindex (happend ▸ hcmp)
    | some i =>
      obtain ⟨hnew, hindex⟩ := hindex.insert hcmp hplace
      have hnew : (met.all fun r => orderRows r row != .eq) = true :=
        List.all_eq_true.mpr fun r hr => by simpa using hnew r hr
      rw [if_pos hnew, hlength, happend, List.map_cons]
      exact congrArg (row :: ·) (ih hindex (happend ▸ hcmp))

/-- Only the rows that differ from every earlier row are kept. -/
theorem distinct_eq_firstRows (h : Comparable rel) : distinct rel = firstRows rel :=
  have hindex : Index [] [] := ⟨.nil, List.Subset.refl _, by simp⟩
  distinctFrom_eq hindex h

theorem firstRows_sublist (rel : Relation) : (firstRows rel).Sublist rel := by
  have := (List.filter_sublist (l := rel.zipIdx)
    (p := fun (row, i) => (rel.take i).all fun r => orderRows r row != .eq)).map Prod.fst
  rwa [List.zipIdx_map_fst] at this

theorem mem_firstRows : row ∈ firstRows rel ↔
    ∃ i, rel[i]? = some row ∧ ∀ r ∈ rel.take i, orderRows r row ≠ .eq := by
  simp [firstRows, List.mem_zipIdx_iff_getElem?]

theorem firstRows_pairwise (rel : Relation) :
    (firstRows rel).Pairwise fun a b => orderRows a b ≠ .eq := by
  refine List.pairwise_map.mpr (List.Pairwise.imp_of_mem ?_ ((Lists.pairwise_zipIdx rel).filter _))
  rintro ⟨a, i⟩ ⟨b, j⟩ ha hb hij
  obtain ⟨ha, -⟩ := List.mem_filter.mp ha
  obtain ⟨-, hb⟩ := List.mem_filter.mp hb
  have hget : rel[i]? = some a := List.mem_zipIdx_iff_getElem?.mp ha
  have hmem : a ∈ rel.take j :=
    List.mem_of_getElem? (i := i) ((List.getElem?_take_of_lt hij).trans hget)
  simpa using List.all_eq_true.mp hb a hmem

/-- Every row equals one that is kept: the first of its equals. -/
theorem exists_firstRows (h : Comparable rel) (hrow : row ∈ rel) :
    ∃ kept ∈ firstRows rel, orderRows kept row = .eq := by
  obtain ⟨i, hi⟩ := List.mem_iff_getElem?.mp hrow
  induction i using Nat.strongRecOn generalizing row with
  | ind i ih =>
    by_cases hnew : ∀ r ∈ rel.take i, orderRows r row ≠ .eq
    · exact ⟨row, mem_firstRows.mpr ⟨i, hi, hnew⟩, orderRows_self row⟩
    · obtain ⟨r, hr, heq⟩ : ∃ r ∈ rel.take i, orderRows r row = .eq := by
        simpa only [ne_eq, not_forall, exists_prop, not_not] using hnew
      obtain ⟨j, hj, rfl⟩ := List.mem_take_iff_getElem.mp hr
      have hmem := List.getElem_mem (show j < rel.length by omega)
      obtain ⟨kept, hkept, hcmp⟩ := ih j (by omega) hmem (List.getElem?_eq_getElem _)
      exact ⟨kept, hkept, h.eq_trans ((firstRows_sublist rel).subset hkept) hmem hrow hcmp heq⟩

/-- Rows that all differ are all kept. -/
theorem firstRows_eq_self (h : rel.Pairwise fun a b => orderRows a b ≠ .eq) :
    firstRows rel = rel := by
  have hall : (rel.zipIdx.filter fun (row, i) =>
      (rel.take i).all fun r => orderRows r row != .eq) = rel.zipIdx := by
    refine List.filter_eq_self.mpr fun (row, i) hmem => List.all_eq_true.mpr fun r hr => ?_
    obtain ⟨j, hj, rfl⟩ := List.mem_take_iff_getElem.mp hr
    have hget : rel[i]? = some row := List.mem_zipIdx_iff_getElem?.mp hmem
    obtain ⟨hi, rfl⟩ := List.getElem?_eq_some_iff.mp hget
    simpa using List.pairwise_iff_getElem.mp h j i (by omega) hi (by omega)
  rw [firstRows, hall, List.zipIdx_map_fst]

/-- Of rows without floating-point numbers exactly those are kept that differ from every earlier
row: they keep their order, no two of them are equal, every row equals one of them, and keeping the
distinct rows of what was kept changes nothing. -/
theorem distinct_keeps_firsts (rel : Relation)
    (h : ∀ row ∈ rel, ∀ v ∈ rowLeaves row, v.isFloating = false) :
    distinct rel = firstRows rel ∧ (distinct rel).Sublist rel ∧
      (distinct rel).Pairwise (fun a b => orderRows a b ≠ .eq) ∧
      (∀ row ∈ rel, ∃ kept ∈ distinct rel, orderRows row kept = .eq) ∧
      distinct (distinct rel) = distinct rel := by
  have hcmp : Comparable rel := comparable_of_not_floating h
  have hkept : Comparable (firstRows rel) := hcmp.subset (firstRows_sublist rel).subset
  rw [distinct_eq_firstRows hcmp]
  refine ⟨rfl, firstRows_sublist rel, firstRows_pairwise rel, fun row hrow => ?_, ?_⟩
  · obtain ⟨kept, hmem, heq⟩ := exists_firstRows hcmp hrow
    exact ⟨kept, hmem, by rw [orderRows_swap, heq]; rfl⟩
  · rw [distinct_eq_firstRows hkept, firstRows_eq_self (firstRows_pairwise rel)]

/-- Equal numbers of different width, nested in rows that are met in no order. -/
def mixedRows : Relation :=
  [[.tuple [.int 3, .null]], [.bag [[.long 2]]], [.tuple [.long 3, .null]],
    [.charArray "x", .int 1], [.bag [[.int 2]]], []]

theorem mixedRows_distinct : (∀ row ∈ mixedRows, ∀ v ∈ rowLeaves row, v.isFloating = false) ∧
    distinct mixedRows = firstRows mixedRows ∧
    firstRows mixedRows =
      [[.tuple [.int 3, .null]], [.bag [[.long 2]]], [.charArray "x", .int 1], []] := by
  have hfree : ∀ row ∈ mixedRows, ∀ v ∈ rowLeaves row, v.isFloating = false := by decide +kernel
  exact ⟨hfree, (distinct_keeps_firsts mixedRows hfree).1, rfl⟩

end Relation

end Dataflow

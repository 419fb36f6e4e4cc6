import Dataflow.Proofs.Lists
import Dataflow.Sorting.Runs
import Mathlib.Data.List.Forall2

/-!
# Sorting looks at comparisons only

Which item goes where when a list is sorted depends on the comparisons alone. So sorting commutes
with every function on the items (`sort_map`), if items are compared through it; there is one lemma
for each step. Two lists whose items are related place by place and compare alike stay so when they
are sorted (`sort_forall₂`).
-/

namespace Dataflow.Sorting

variable {α β : Type} (f : α → β) (before : β → β → Bool)

/-- Items are compared through a function. -/
def through (f : α → β) (before : β → β → Bool) : α → α → Bool := fun a b => before (f a) (f b)

/-! ## Insertion -/

theorem insertBack_map (x : α) (l : List α) :
    insertBack before (f x) (l.map f) = (insertBack (through f before) x l).map f := by
  induction l with
  | nil => rfl
  | cons y rest ih =>
    rw [List.map_cons, insertBack, insertBack, ih, through]
    split <;> rfl

theorem insertAll_map (sorted items : List α) :
    insertAll before (sorted.map f) (items.map f) =
      (insertAll (through f before) sorted items).map f := by
  have hfold : ∀ reversed : List α,
      (items.map f).foldl (fun reversed x => insertBack before x reversed) (reversed.map f) =
        (items.foldl (fun reversed x => insertBack (through f before) x reversed) reversed).map
          f := by
    induction items with
    | nil => intro reversed; rfl
    | cons x rest ih =>
      intro reversed
      rw [List.map_cons, List.foldl_cons, List.foldl_cons, insertBack_map, ih]
  rw [insertAll, insertAll, ← List.map_reverse, hfold, List.map_reverse]

theorem insertionSort_map (items : List α) :
    insertionSort before (items.map f) = (insertionSort (through f before) items).map f :=
  insertAll_map f before [] items

theorem sortFour_map (w x y z : α) : sortFour before (f w) (f x) (f y) (f z) =
    (sortFour (through f before) w x y z).map f := by
  have hpair : ∀ x w : α, (if before (f x) (f w) then (f x, f w) else (f w, f x)) =
      Prod.map f f (if through f before x w then (x, w) else (w, x)) := fun x w => by
    unfold through
    split <;> rfl
  unfold sortFour
  rw [hpair, hpair]
  obtain ⟨a, b⟩ := if through f before x w then (x, w) else (w, x)
  obtain ⟨c, d⟩ := if through f before z y then (z, y) else (y, z)
  have h : through f before = fun a b => before (f a) (f b) := rfl
  simp only [Prod.map, h]
  rcases hac : before (f c) (f a) with _ | _ <;> rcases hbd : before (f d) (f b) with _ | _ <;>
    dsimp only <;> split <;> rfl

theorem sortHalf_map (fourFirst : Bool) (items : List α) :
    sortHalf before fourFirst (items.map f) =
      (sortHalf (through f before) fourFirst items).map f := by
  unfold sortHalf
  split
  · rename_i w x y z rest h
    match items, h with
    | a :: b :: c :: d :: rest', h =>
      simp only [List.map_cons, List.cons.injEq] at h
      obtain ⟨rfl, rfl, rfl, rfl, rfl⟩ := h
      rw [sortFour_map, insertAll_map]
  · rename_i h
    rw [insertionSort_map]
    split
    · rename_i w x y z rest
      exact (h _ _ _ _ _ rfl rfl).elim
    · rfl

/-! ## Merging -/

theorem mergeFront_map (left right : List α) :
    mergeFront before (left.map f) (right.map f) =
      (mergeFront (through f before) left right).map f := by
  unfold mergeFront through
  exact (List.map_merge (f := f) fun _ _ _ _ => rfl).symm

theorem mergeBack_map (left right : List α) :
    mergeBack before (left.map f) (right.map f) =
      (mergeBack (through f before) left right).map f := by
  unfold mergeBack through
  have hmerge : (right.reverse.merge left.reverse fun r l => !before (f r) (f l)).map f =
      (right.reverse.map f).merge (left.reverse.map f) fun r l => !before r l :=
    List.map_merge fun _ _ _ _ => rfl
  rw [List.map_reverse, hmerge, List.map_reverse, List.map_reverse]

theorem merge_map (left right : List α) :
    merge before (left.map f) (right.map f) = (merge (through f before) left right).map f := by
  unfold merge
  rw [List.length_map, List.length_map, mergeFront_map, mergeBack_map]
  split <;> rfl

theorem mergeSteps_map (first : β → β → Bool) : ∀ (steps : Nat) (xs ys : List α),
    mergeSteps first steps (xs.map f) (ys.map f) =
      let r := mergeSteps (through f first) steps xs ys
      (r.1.map f, r.2.1.map f, r.2.2.map f)
  | 0, _, _ => by simp only [mergeSteps, List.map_nil]
  | _ + 1, [], [] => rfl
  | steps + 1, x :: xs, [] => by
    have ih := mergeSteps_map first steps xs []
    simp only [List.map_cons, List.map_nil, mergeSteps] at ih ⊢
    rw [ih]
  | steps + 1, [], y :: ys => by
    have ih := mergeSteps_map first steps [] ys
    simp only [List.map_cons, List.map_nil, mergeSteps] at ih ⊢
    rw [ih]
  | steps + 1, x :: xs, y :: ys => by
    have ihx := mergeSteps_map first steps xs (y :: ys)
    have ihy := mergeSteps_map first steps (x :: xs) ys
    simp only [List.map_cons, mergeSteps] at ihx ihy ⊢
    have hfirst : through f first x y = first (f x) (f y) := rfl
    rw [hfirst]
    split
    · rw [ihx]; rfl
    · rw [ihy]; rfl

theorem mergeInward_map (left right : List α) :
    mergeInward before (left.map f) (right.map f) =
      (mergeInward (through f before) left right).map f := by
  have hforward := mergeSteps_map f (fun l r => !before r l) ((left.length + right.length) / 2)
    left right
  have hbackward := mergeSteps_map f (fun r l => !before r l) ((left.length + right.length) / 2)
    right.reverse left.reverse
  change _ = (mergeInward (fun a b => before (f a) (f b)) left right).map f
  unfold through at hforward hbackward
  unfold mergeInward
  dsimp only at hforward hbackward ⊢
  rw [← List.map_reverse, ← List.map_reverse, List.length_map, List.length_map, hforward, hbackward]
  obtain ⟨front, left₁, right₁⟩ := mergeSteps (fun l r => !before (f r) (f l))
    ((left.length + right.length) / 2) left right
  obtain ⟨back, right₂, left₂⟩ := mergeSteps (fun r l => !before (f r) (f l))
    ((left.length + right.length) / 2) right.reverse left.reverse
  dsimp only
  simp only [List.length_map]
  split
  · simp only [List.map_append, List.map_take, List.map_reverse]
  · exact mergeFront_map f before left right

/-! ## Blocks and runs -/

theorem sortBlock_map (items : List α) :
    sortBlock before (items.map f) = (sortBlock (through f before) items).map f := by
  unfold sortBlock
  simp only [List.length_map, ← List.map_take, ← List.map_drop, sortHalf_map, mergeInward_map]
  split <;> rfl

theorem stretch_map (descending : Bool) : ∀ (x : α) (l : List α),
    stretch before descending (f x) (l.map f) = stretch (through f before) descending x l
  | _, [] => rfl
  | x, y :: rest => by
    have ih := stretch_map descending y rest
    rw [List.map_cons, stretch, stretch, ih, through]

theorem naturalRun_map (items : List α) :
    naturalRun before (items.map f) = naturalRun (through f before) items := by
  match items with
  | [] => rfl
  | [x] => rfl
  | x :: y :: rest =>
    rw [List.map_cons, List.map_cons, naturalRun, naturalRun, stretch_map]
    rfl

/-- The run with a function applied to its items. -/
def Run.map (f : α → β) (run : Run α) : Run β := ⟨run.items.map f, run.isSorted⟩

theorem firstRun_map (blocks : Bool) (least : Nat) (items : List α) :
    firstRun before blocks least (items.map f) =
      (firstRun (through f before) blocks least items).map f := by
  unfold firstRun
  rw [naturalRun_map]
  simp only [← List.map_take, sortBlock_map]
  split
  · simp only [Run.map]
    split <;> simp
  · split <;> rfl

theorem runs_map (blocks : Bool) (least : Nat) : ∀ (count : Nat) (items : List α),
    runs before blocks least count (items.map f) =
      (runs (through f before) blocks least count items).map (Run.map f)
  | 0, _ => rfl
  | _ + 1, [] => rfl
  | count + 1, x :: items => by
    have ih := runs_map blocks least count
    have hfirst := firstRun_map f before blocks least (x :: items)
    rw [List.map_cons] at hfirst ⊢
    rw [runs, runs, hfirst, List.map_cons]
    · have hlen : ((firstRun (through f before) blocks least (x :: items)).map f).items.length =
          (firstRun (through f before) blocks least (x :: items)).items.length := List.length_map ..
      rw [hlen, ← List.map_cons, ← List.map_drop, ih]
    · simp
    · simp

section Merging

variable {settle : List β → List β} {settle' : List α → List α}
  (hsettle : ∀ l, settle (l.map f) = (settle' l).map f)

include hsettle

theorem joinRuns_map (left right : Run α) :
    joinRuns before settle (left.map f) (right.map f) =
      (joinRuns (through f before) settle' left right).map f := by
  unfold joinRuns Run.map
  dsimp only
  split
  · have hsettled : ∀ run : Run α,
        (if run.isSorted then run.items.map f else settle (run.items.map f)) =
          (if run.isSorted then run.items else settle' run.items).map f := fun run => by
      split
      · rfl
      · exact hsettle _
    rw [hsettled, hsettled, merge_map]
  · rw [List.map_append]

theorem collapse_map (depth : Nat) : ∀ (done : List (Run α × Nat)) (run : Run α),
    collapse before settle depth (done.map (Prod.map (Run.map f) id)) (run.map f) =
      Prod.map (List.map (Prod.map (Run.map f) id)) (Run.map f)
        (collapse (through f before) settle' depth done run)
  | [], _ => rfl
  | (left, d) :: rest, run => by
    have ih := collapse_map depth rest
    rw [List.map_cons, Prod.map_apply, id, collapse, collapse]
    split
    · rw [joinRuns_map f before hsettle, ih]
    · rfl

theorem mergeRuns_map (n : Nat) : ∀ (rest : List (Run α)) (done : List (Run α × Nat))
    (run : Run α) (position : Nat),
    mergeRuns before settle n (done.map (Prod.map (Run.map f) id)) (run.map f) position
        (rest.map (Run.map f)) =
      (mergeRuns (through f before) settle' n done run position rest).map f
  | [], done, run, position => by
    rw [List.map_nil, mergeRuns, mergeRuns, collapse_map f before hsettle]
    rfl
  | next :: rest, done, run, position => by
    have hlen : ∀ run : Run α, (run.map f).items.length = run.items.length := fun run =>
      List.length_map ..
    have ih := mergeRuns_map n rest
    rw [List.map_cons, mergeRuns, mergeRuns]
    simp only [hlen, collapse_map f before hsettle]
    exact ih ((_, _) :: _) next _

theorem sortByRuns_map (blocks : Bool) (items : List α) :
    sortByRuns before blocks settle (items.map f) =
      (sortByRuns (through f before) blocks settle' items).map f := by
  unfold sortByRuns
  simp only [List.length_map, runs_map]
  cases runs (through f before) blocks (leastRun items.length) items.length items with
  | nil => rfl
  | cons run rest =>
    have hmerge := mergeRuns_map f before hsettle items.length rest [] run run.items.length
    have hlen : (run.map f).items.length = run.items.length := List.length_map ..
    simp only [List.map_cons, hlen]
    rw [List.map_nil] at hmerge
    rw [hmerge]
    unfold Run.map
    dsimp only
    split
    · rfl
    · exact hsettle _

end Merging

theorem sortByBlocks_map (items : List α) :
    sortByBlocks before (items.map f) = (sortByBlocks (through f before) items).map f :=
  sortByRuns_map f before (fun _ => rfl) true items

/-! ## Splitting -/

theorem median_map (a b c : α) :
    median before (f a) (f b) (f c) = f (median (through f before) a b c) := by
  unfold median through
  dsimp only
  split
  · split <;> rfl
  · rfl

theorem medianAround_map (items : Array α) : ∀ (n : Nat) (a b c : Nat × α),
    medianAround before (items.map f) n (Prod.map id f a) (Prod.map id f b) (Prod.map id f c) =
      Prod.map id f (medianAround (through f before) items n a b c) := by
  intro n
  induction n using Nat.strongRecOn with
  | _ n ih =>
    intro a b c
    rw [medianAround, medianAround]
    have hmedian : ∀ a b c : Nat × α,
        median (fun x y : Nat × β => before x.2 y.2) (Prod.map id f a) (Prod.map id f b)
            (Prod.map id f c) =
          Prod.map id f (median (fun x y : Nat × α => through f before x.2 y.2) a b c) :=
      median_map (Prod.map id f) fun x y => before x.2 y.2
    split
    · exact hmedian a b c
    · have haround : ∀ p : Nat × α, ∀ i, ((i, (items.map f).getD i (f p.2)) : Nat × β) =
          Prod.map id f (i, items.getD i p.2) := fun p i => by
        simp only [Prod.map_apply, id, Array.getD_eq_getD_getElem?, Array.getElem?_map,
          Option.getD_map]
      simp only [Prod.map_fst, Prod.map_snd, id, haround, ih (n / 8) (by omega)]
      exact hmedian _ _ _

theorem pivot_map (items : Array α) (first : α) :
    pivot before (items.map f) (f first) =
      Prod.map id f (pivot (through f before) items first) := by
  have hitem : ∀ i, ((i, (items.map f).getD i (f first)) : Nat × β) =
      Prod.map id f (i, items.getD i first) := fun i => by
    simp only [Prod.map_apply, id, Array.getD_eq_getD_getElem?, Array.getElem?_map, Option.getD_map]
  unfold pivot
  simp only [Array.size_map, hitem]
  exact medianAround_map f before items _ (0, first) _ _

theorem splitAround_map (goesLeft : β → Bool) (place : Nat) (placeLeft : Bool) (items : List α) :
    splitAround goesLeft place placeLeft (items.map f) =
      Prod.map (List.map f) (List.map f)
        (splitAround (fun x => goesLeft (f x)) place placeLeft items) := by
  unfold splitAround
  rw [List.zipIdx_map]
  simp only [List.partition_eq_filter_filter, List.filter_map, List.map_map, Prod.map_apply]
  rfl

theorem sortBySplitting_map : ∀ (limit : Nat) (leftPivot : Option α) (items : List α),
    sortBySplitting before limit (leftPivot.map f) (items.map f) =
      (sortBySplitting (through f before) limit leftPivot items).map f
  | _, _, [] => by simp only [List.map_nil, sortBySplitting]
  | 0, leftPivot, first :: rest => by
    rw [List.map_cons, sortBySplitting, sortBySplitting, ← List.map_cons, List.length_map,
      sortBlock_map, sortByBlocks_map]
    split <;> rfl
  | limit + 1, leftPivot, first :: rest => by
    have ih := sortBySplitting_map limit
    rw [List.map_cons, sortBySplitting, sortBySplitting, ← List.map_cons, List.length_map,
      sortBlock_map]
    split
    · rfl
    have harray : ((first :: rest).map f).toArray = (first :: rest).toArray.map f := by simp
    have hbefore : ∀ a b, through f before a b = before (f a) (f b) := fun _ _ => rfl
    have hequal : (leftPivot.map f).any (fun l => !before l
          (f (pivot (through f before) (first :: rest).toArray first).2)) =
        leftPivot.any fun l => !through f before l
          (pivot (through f before) (first :: rest).toArray first).2 := by
      cases leftPivot <;> rfl
    simp only [harray, pivot_map, Prod.map_fst, Prod.map_snd, id, splitAround_map, hequal,
      List.isEmpty_map, hbefore]
    split
    · rw [List.map_append]
      exact congrArg _ (ih none _)
    · rw [List.map_append, ih leftPivot]
      exact congrArg _ (ih (some _) _)

/-! ## Sorting -/

/-- Sorting commutes with a function through which items are compared. -/
theorem sort_map (items : List α) :
    sort before (items.map f) = (sort (through f before) items).map f := by
  unfold sort
  simp only [List.length_map, insertionSort_map]
  split
  · rfl
  · refine sortByRuns_map f before (fun l => ?_) _ items
    rw [List.length_map]
    exact sortBySplitting_map f before _ none l

/-- Items that are related and compare alike come to the same places. -/
theorem sort_forall₂ {α β : Type} {R : α → β → Prop} {before : α → α → Bool}
    {before' : β → β → Bool} (hbefore : ∀ a b a' b', R a b → R a' b' →
      before a a' = before' b b') {as : List α} {bs : List β} (h : List.Forall₂ R as bs) :
    List.Forall₂ R (sort before as) (sort before' bs) := by
  obtain ⟨pairs, rfl, rfl⟩ := Lists.exists_pairs h
  have hthrough : through (fun x : { x : α × β // R x.1 x.2 } => x.1.1) before =
      through (fun x : { x : α × β // R x.1 x.2 } => x.1.2) before' :=
    funext fun x => funext fun y => hbefore _ _ _ _ x.2 y.2
  rw [sort_map, sort_map, hthrough, List.forall₂_map_left_iff, List.forall₂_map_right_iff]
  exact List.forall₂_same.mpr fun x _ => x.2

/-- Sorting adds no items. -/
theorem mem_of_mem_sort {before : α → α → Bool} {a : α} {as : List α} (h : a ∈ sort before as) :
    a ∈ as := by
  have hself : List.Forall₂ (fun x y => x = y ∧ x ∈ as) as as :=
    List.forall₂_same.mpr fun x hx => ⟨rfl, hx⟩
  have hsorted : List.Forall₂ (fun x y => x = y ∧ x ∈ as) (sort before as) (sort before as) :=
    sort_forall₂ (fun x y x' y' hx hx' => by rw [hx.1, hx'.1]) hself
  obtain ⟨i, hi, rfl⟩ := List.mem_iff_getElem.mp h
  exact (hsorted.get hi hi).2

end Dataflow.Sorting

import Dataflow.Number.Width
import Dataflow.Sorting.Block

/-!
# Sorting by runs

A long list is cut into runs, which are sorted or left for later, and neighbouring runs are merged
in the order of a tree that is nearly balanced by their lengths. What is left for later is sorted by
splitting it at pivots. `sort` is stable; its comparisons matter for the reason that the sorting of
short lists gives.
-/

namespace Dataflow.Sorting

variable {α : Type} (before : α → α → Bool)

/-- A stretch of the list, and whether it is sorted already. -/
structure Run (α : Type) where
  items : List α
  isSorted : Bool

/-! ## Cutting -/

/-- How many items follow the given one that each come before the one in front of them, or that each
do not. -/
def stretch (descending : Bool) (x : α) : List α → Nat
  | [] => 0
  | y :: rest => if before y x == descending then stretch descending y rest + 1 else 0

/-- The length of the run that a list begins with, and whether it descends. -/
def naturalRun : List α → Nat × Bool
  | x :: y :: rest =>
    let descending := before y x
    (stretch before descending y rest + 2, descending)
  | items => (items.length, false)

/-- The lengths up to which a natural run has the same least length. -/
def evenRunLimit : Nat := 4096

/-- Roughly the square root: one step of approximation from a power of two. -/
def rootEstimate (n : Nat) : Nat :=
  let shift := (1 + (Nat.max n 1).log2) / 2
  (twoPow shift + n / twoPow shift) / 2

/-- The least length of a natural run that is kept in a list of length `n`. -/
def leastRun (n : Nat) : Nat := if n ≤ evenRunLimit then min (n - n / 2) 64 else rootEstimate n

/-- The run that a list begins with. If its natural run is too short, it is a block that is sorted
now, or a stretch that is not sorted yet. -/
def firstRun (blocks : Bool) (least : Nat) (items : List α) : Run α :=
  let (n, descending) := naturalRun before items
  if least ≤ n then
    ⟨if descending then (items.take n).reverse else items.take n, true⟩
  else if blocks then ⟨sortBlock before (items.take blockSize), true⟩
  else ⟨items.take least, false⟩

/-- The runs of a list, one after the other. Each has at least one item, so that the length of the
list bounds their number. -/
def runs (blocks : Bool) (least : Nat) : (count : Nat) → List α → List (Run α)
  | 0, _ | _, [] => []
  | count + 1, items =>
    let run := firstRun before blocks least items
    run :: runs blocks least count (items.drop run.items.length)

/-! ## Merging -/

/-- How deep the merge of two neighbouring runs is in a balanced tree over `n` items: how many
leading bits of 64 the centres of both, scaled to the tree, have in common. -/
def mergeDepth (n left middle right : Nat) : Nat :=
  let scale := (twoPow 62 + n - 1) / n
  let difference := (scale * (left + middle)) ^^^ (scale * (middle + right))
  if difference = 0 then 64 else 63 - difference.log2

/-- Merges neighbours. If neither is sorted, it only joins them. -/
def joinRuns (settle : List α → List α) (left right : Run α) : Run α :=
  if left.isSorted || right.isSorted then
    let settled (run : Run α) : List α := if run.isSorted then run.items else settle run.items
    ⟨merge before (settled left) (settled right), true⟩
  else ⟨left.items ++ right.items, false⟩

/-- Merges a run with those in front of it that are deeper in the tree than the merge behind it. -/
def collapse (settle : List α → List α) (depth : Nat) :
    List (Run α × Nat) → Run α → List (Run α × Nat) × Run α
  | [], run => ([], run)
  | (left, d) :: rest, run =>
    if depth ≤ d then collapse settle depth rest (joinRuns before settle left run)
    else ((left, d) :: rest, run)

/-- Merges the runs of a list of length `n`: `done` are those in front of `run`, the nearest first,
with the depths of the merges behind them, and `position` is where `run` ends. -/
def mergeRuns (settle : List α → List α) (n : Nat) (done : List (Run α × Nat)) (run : Run α)
    (position : Nat) : List (Run α) → Run α
  | [] => (collapse before settle 0 done run).2
  | next :: rest =>
    let size := next.items.length
    let depth := mergeDepth n (position - run.items.length) position (position + size)
    let (done, run) := collapse before settle depth done run
    mergeRuns settle n ((run, depth) :: done) next (position + size) rest

/-- Sorts by runs; `settle` sorts what is not sorted. -/
def sortByRuns (blocks : Bool) (settle : List α → List α) (items : List α) : List α :=
  let n := items.length
  match runs before blocks (leastRun n) n items with
  | [] => []
  | run :: rest =>
    let all := mergeRuns before settle n [] run run.items.length rest
    if all.isSorted then all.items else settle all.items

/-- Sorts by runs that are blocks. -/
def sortByBlocks (items : List α) : List α := sortByRuns before true id items

/-! ## Splitting -/

/-- The one of three items that is neither first nor last. -/
def median (a b c : α) : α :=
  let x := before a b
  if x == before a c then (if before b c != x then c else b) else a

/-- The median of the medians around three places; `n` items belong to each. -/
def medianAround (items : Array α) (n : Nat) (a b c : Nat × α) : Nat × α :=
  let byItem (x y : Nat × α) : Bool := before x.2 y.2
  if n < 8 then median byItem a b c
  else
    let around (p : Nat × α) : Nat × α :=
      let item (i : Nat) : Nat × α := (i, items.getD i p.2)
      medianAround items (n / 8) p (item (p.1 + n / 8 * 4)) (item (p.1 + n / 8 * 7))
    median byItem (around a) (around b) (around c)
termination_by n
decreasing_by omega

/-- The item at which a list is split, and its place. -/
def pivot (items : Array α) (first : α) : Nat × α :=
  let n := items.size / 8
  let item (i : Nat) : Nat × α := (i, items.getD i first)
  medianAround before items n (0, first) (item (n * 4)) (item (n * 7))

/-- Splits a list in two: the item at the given place goes left as told, others if `goesLeft`. -/
def splitAround (goesLeft : α → Bool) (place : Nat) (placeLeft : Bool) (items : List α) :
    List α × List α :=
  let (left, right) := items.zipIdx.partition fun (x, i) =>
    if i = place then placeLeft else goesLeft x
  (left.map Prod.fst, right.map Prod.fst)

/-- Sorts by splitting at pivots. Those equal to the pivot are split off if nothing comes before it,
or if it is not after the pivot to the left of the list. After `limit` splits it sorts by blocks. -/
def sortBySplitting : (limit : Nat) → (leftPivot : Option α) → List α → List α
  | _, _, [] => []
  | limit, leftPivot, first :: rest =>
    let items := first :: rest
    if items.length ≤ blockSize then sortBlock before items
    else match limit with
      | 0 => sortByBlocks before items
      | limit + 1 =>
        let (place, p) := pivot before items.toArray first
        let equalToLeft := leftPivot.any fun l => !before l p
        let (low, high) := splitAround (fun x => before x p) place false items
        if equalToLeft || low.isEmpty then
          let (equal, high) := splitAround (fun x => !before p x) place true items
          equal ++ sortBySplitting limit none high
        else sortBySplitting limit leftPivot low ++ sortBySplitting limit (some p) high

/-! ## Sorting -/

/-- Up to this length a list is sorted by insertion. -/
def insertionLimit : Nat := 20

/-- Sorts a list; equal items keep their order. -/
def sort (items : List α) : List α :=
  let n := items.length
  if n ≤ insertionLimit then insertionSort before items
  else
    sortByRuns before (n ≤ 2 * blockSize)
      (fun xs => sortBySplitting before (2 * (Nat.max xs.length 1).log2) none xs) items

end Dataflow.Sorting

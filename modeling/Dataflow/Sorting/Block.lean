/-!
# Sorting short lists

Stable sorting by insertion and by merging. `before a b` means that `a` has to come before `b`. It
need not be transitive in what it leaves open: an integer beyond 53 bits and the double next to it
are equal to each other but not to the same third number. The result then depends on the comparisons
that are made, so the steps are part of the definitions.
-/

namespace Dataflow.Sorting

variable {α : Type} (before : α → α → Bool)

/-! ## Insertion -/

/-- Puts an item behind the last one that it does not come before; the list is in reverse. -/
def insertBack (x : α) : List α → List α
  | [] => [x]
  | y :: rest => if before x y then y :: insertBack x rest else x :: y :: rest

/-- Inserts items one by one into a list that is sorted. -/
def insertAll (sorted items : List α) : List α :=
  (items.foldl (fun reversed x => insertBack before x reversed) sorted.reverse).reverse

/-- Sorts by insertion. -/
def insertionSort (items : List α) : List α := insertAll before [] items

/-- Sorts four items with five comparisons: two pairs, the first of both, the last of both, and the
two that are left. -/
def sortFour (w x y z : α) : List α :=
  let (a, b) := if before x w then (x, w) else (w, x)
  let (c, d) := if before z y then (z, y) else (y, z)
  let (least, greatest, left, right) :=
    match before c a, before d b with
    | false, false => (a, d, b, c)
    | false, true => (a, b, c, d)
    | true, false => (c, d, a, b)
    | true, true => (c, b, a, d)
  if before right left then [least, right, left, greatest] else [least, left, right, greatest]

/-- Sorts half a block: by insertion, into its first four items if these are to be sorted first. -/
def sortHalf (fourFirst : Bool) (items : List α) : List α :=
  match fourFirst, items with
  | true, w :: x :: y :: z :: rest => insertAll before (sortFour before w x y z) rest
  | _, items => insertionSort before items

/-! ## Merging -/

/-- Merges from the front: of equal items the left one is first. -/
def mergeFront (left right : List α) : List α := left.merge right fun l r => !before r l

/-- Merges from the back: of equal items the right one is last. -/
def mergeBack (left right : List α) : List α :=
  (right.reverse.merge left.reverse fun r l => !before r l).reverse

/-- Merges two sorted lists, beginning at the end where the shorter one is. -/
def merge (left right : List α) : List α :=
  if left.length ≤ right.length then mergeFront before left right else mergeBack before left right

/-- The first items of merging two lists, a step each, and what is left of the lists. `first x y`
says that an item of the left one goes first. -/
def mergeSteps (first : α → α → Bool) : Nat → List α → List α → List α × List α × List α
  | 0, xs, ys => ([], xs, ys)
  | _ + 1, [], [] => ([], [], [])
  | steps + 1, x :: xs, [] =>
    let (merged, rest) := mergeSteps first steps xs []
    (x :: merged, rest)
  | steps + 1, [], y :: ys =>
    let (merged, rest) := mergeSteps first steps [] ys
    (y :: merged, rest)
  | steps + 1, x :: xs, y :: ys =>
    if first x y then
      let (merged, rest) := mergeSteps first steps xs (y :: ys)
      (x :: merged, rest)
    else
      let (merged, rest) := mergeSteps first steps (x :: xs) ys
      (y :: merged, rest)

/-- Merges two sorted lists of about the same length from both ends at once; an item that is left
over is in the middle. Should the ends pass each other, it merges from the front. -/
def mergeInward (left right : List α) : List α :=
  let steps := (left.length + right.length) / 2
  let (front, left₁, right₁) := mergeSteps (fun l r => !before r l) steps left right
  let (back, right₂, left₂) := mergeSteps (fun r l => !before r l) steps right.reverse left.reverse
  if left.length ≤ left₁.length + left₂.length && right.length ≤ right₁.length + right₂.length then
    front ++ left₁.take (left₁.length + left₂.length - left.length) ++
      right₁.take (right₁.length + right₂.length - right.length) ++ back.reverse
  else mergeFront before left right

/-! ## Blocks -/

/-- How many items a block has at most. -/
def blockSize : Nat := 32

/-- From here on the halves of a block have four items to begin with. -/
def fourFirstSize : Nat := 8

/-- Sorts a block: each half, and then both together. -/
def sortBlock (items : List α) : List α :=
  let fourFirst := fourFirstSize ≤ items.length
  let half := items.length / 2
  if items.length < 2 then items
  else mergeInward before (sortHalf before fourFirst (items.take half))
    (sortHalf before fourFirst (items.drop half))

end Dataflow.Sorting

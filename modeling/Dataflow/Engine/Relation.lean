import Dataflow.Engine.Eval
import Dataflow.Operator.Basic
import Dataflow.Sorting.Runs

/-!
# Operations on relations

What each operation makes of the rows of its inputs. Relations are lists of rows; the order of rows
is part of the result.
-/

namespace Dataflow

/-- The rows of an input or output. -/
abbrev Relation := List Row

namespace Relation

/-- The rows for which a formula is true. -/
def filter (predicate : Formula) : Relation → RunResult Relation
  | [] => .ok []
  | row :: rest => do
    let keep ← predicate.holds [row]
    let kept ← filter predicate rest
    return if keep then row :: kept else kept

/-! ## Generated rows -/

/-- Adds what an item generates to rows that are being built. Flattening a tuple adds its values,
flattening a bag makes a row of each of its rows; all else adds one value. -/
def extend (flatten : Bool) (v : Value) (partials : Relation) : Relation :=
  match flatten, v with
  | true, .tuple values => partials.map (· ++ values)
  | true, .bag rows => partials.flatMap fun p => rows.map (p ++ ·)
  | _, v => partials.map (· ++ [v])

/-- The rows that the items generate from one row. -/
def generateRow (row : Row) : List Item → Relation → RunResult Relation
  | [], partials => .ok partials
  | item :: rest, partials => do
    generateRow row rest (extend item.flatten (← item.formula.value [row]) partials)

/-- The rows that the items generate. -/
def generate (items : List Item) : Relation → RunResult Relation
  | [] => .ok []
  | row :: rest => do
    let made ← generateRow row items [[]]
    return made ++ (← generate items rest)

/-! ## Products and joins -/

/-- Every combination of a row of each input. The last input varies fastest. -/
def cross (inputs : List Relation) : Relation :=
  inputs.foldl (fun acc rel => acc.flatMap fun l => rel.map (l ++ ·)) [[]]

/-- A row with its join keys. -/
abbrev Keyed := List Value × Row

/-- The rows of input `i` with their keys; the key formulas see no other input. -/
def withKeys (keys : List Formula) (i arity : Nat) (rel : Relation) : RunResult (List Keyed) :=
  rel.mapM fun row => do
    let rows := (List.replicate arity []).set i row
    return (← keys.mapM (·.value rows), row)

/-- The rows of each input with their keys. -/
def allWithKeys (keys : List (List Formula)) (inputs : List Relation) :
    RunResult (List (List Keyed)) :=
  (keys.zip inputs).zipIdx.mapM fun ((ks, rel), i) => withKeys ks i inputs.length rel

/-- Whether two keys go together: they are equal and have no nulls. -/
def keysMatch (a b : List Value) : Bool :=
  !(a ++ b).any Value.isNull && Value.orderRows a b == .eq

/-- Combinations of rows with matching keys. The key of the first input stands for all. -/
def innerJoin : List (List Keyed) → Relation
  | [] => []
  | first :: rest =>
    (rest.foldl (fun acc rel => acc.flatMap fun (k, l) =>
      (rel.filter fun (k', _) => keysMatch k k').map fun (_, r) => (k, l ++ r)) first).map Prod.snd

/-- A row of nulls. -/
def nulls (width : Nat) : Row := List.replicate width .null

/-- Whether a key goes together with one of the listed rows. -/
def hasPartner (k : List Value) (rel : List Keyed) : Bool := rel.any fun (k', _) => keysMatch k k'

/-- Combinations of rows with matching keys and, as asked for, rows of either side without partner
beside nulls. -/
def outerJoin (keepLeft keepRight : Bool) (left right : List Keyed) (leftWidth rightWidth : Nat) :
    Relation :=
  let joined := left.flatMap fun (k, l) =>
    if hasPartner k right then
      (right.filter fun (k', _) => keysMatch k k').map fun (_, r) => l ++ r
    else if keepLeft then [l ++ nulls rightWidth] else []
  let lonely := if keepRight then
      (right.filter fun (k', _) => !left.any fun (k, _) => keysMatch k k').map fun (_, r) =>
        nulls leftWidth ++ r
    else []
  joined ++ lonely

/-- How wide the rows of an input are: as its schema says, or else as its first row is. -/
def widthOf (known : Option Nat) (rel : List Keyed) : Nat :=
  known.getD ((rel.head?.map fun (_, r) => r.length).getD 0)

/-- The rows of a join. -/
def join (type : JoinType) (keys : List (List Formula)) (inputs : List Relation)
    (widths : List (Option Nat)) : RunResult Relation := do
  if keys.length ≠ inputs.length then
    throw (.invalid (.keyLists keys.length inputs.length))
  let keyed ← allWithKeys keys inputs
  match type, keyed with
  | .inner, _ => return innerJoin keyed
  | _, [left, right] =>
    return outerJoin (type == .left || type == .full) (type == .right || type == .full) left right
      (widthOf (widths[0]?).join left) (widthOf (widths[1]?).join right)
  | _, _ => throw (.invalid .outerJoinInputs)

/-! ## Distinct rows -/

/-- Narrows the `size` places from `base` on of an ascending list down to the last one that does not
lie above the row, or to the first one. -/
def lastBelow (rows : Array Row) (row : Row) (base size : Nat) : Nat :=
  if size ≤ 1 then base
  else
    let half := size / 2
    let base' :=
      if Value.orderRows (rows.getD (base + half) []) row == .gt then base else base + half
    lastBelow rows row base' (size - half)
termination_by size
decreasing_by omega

/-- Where a row belongs in an ascending list; none if an equal one is in it. -/
def place? (rows : Array Row) (row : Row) : Option Nat :=
  if rows.isEmpty then some 0
  else
    let i := lastBelow rows row 0 rows.size
    match Value.orderRows (rows.getD i []) row with
    | .eq => none
    | .lt => some (i + 1)
    | .gt => some i

/-- The rows without those that equal an earlier one; `seen` are the earlier ones, ascending. -/
def distinctFrom (seen : List Row) : Relation → Relation
  | [] => []
  | row :: rest =>
    match place? seen.toArray row with
    | none => distinctFrom seen rest
    | some i => row :: distinctFrom (seen.insertIdx i row) rest

/-- The first row of each class of equal rows. -/
def distinct (rel : Relation) : Relation := distinctFrom [] rel

/-! ## Sorting -/

/-- The order of two lists of sort keys, each in its direction. -/
def orderKeys : List SortKey → List Value → List Value → Ordering
  | key :: keys, a :: as, b :: bs =>
    let o := a.order b
    (if key.ascending then o else o.swap).then (orderKeys keys as bs)
  | _, _, _ => .eq

/-- The rows in the order of the keys; rows with equal keys keep their order. -/
def sort (keys : List SortKey) (rel : Relation) : RunResult Relation := do
  let keyed ← rel.mapM fun row => do return (← keys.mapM (·.formula.value [row]), row)
  return (Sorting.sort (fun a b => orderKeys keys a.1 b.1 == .lt) keyed).map Prod.snd

/-! ## Loading -/

/-- Keeps of a map only the entries with the given keys; other values stay. -/
def restrictMap (keys : List String) : Value → Value
  | .map entries => .map (entries.filter fun (k, _) => keys.contains k)
  | v => v

/-- Keeps of map columns only the entries that are needed. -/
def restrictRow (table : KeyTable) (row : Row) : Row :=
  table.foldl (fun row (column, keys) => row.modify column (restrictMap keys)) row

end Relation

end Dataflow

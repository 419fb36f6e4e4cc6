import Dataflow.Expr.Formula

/-!
# Operators

An operator of a plan takes the rows of its inputs and produces rows of its own. Its `Operation`
says what it does and holds its parameters, among them formulas over the columns of the inputs. An
operator also remembers its output schema once that was derived.
-/

namespace Dataflow

/-- What an operator does, without its parameters. -/
inductive OperatorType where
  | load | store | filter | join | forEach | union | cross | distinct | split | splitOutput | sort
  | limit
deriving DecidableEq, Repr, Inhabited

namespace OperatorType

def name : OperatorType → String
  | .load => "Load"
  | .store => "Store"
  | .filter => "Filter"
  | .join => "Join"
  | .forEach => "ForEach"
  | .union => "Union"
  | .cross => "Cross"
  | .distinct => "Distinct"
  | .split => "Split"
  | .splitOutput => "SplitOutput"
  | .sort => "Sort"
  | .limit => "Limit"

instance : ToString OperatorType := ⟨name⟩

/-- All types. -/
def all : List OperatorType :=
  [.load, .store, .filter, .join, .forEach, .union, .cross, .distinct, .split, .splitOutput, .sort,
    .limit]

/-- The type with this name; letter case does not matter. -/
def ofName? (s : String) : Option OperatorType := all.find? fun t => Text.sameLetters t.name s

/-- Whether more than one input may be connected. -/
def allowsMultipleInputs : OperatorType → Bool
  | .join | .cross | .union => true
  | _ => false

/-- How many inputs have to be connected at least. -/
def minInputs : OperatorType → Nat
  | .load => 0
  | .join | .cross => 2
  | _ => 1

/-- Whether the rows have the columns of the only input. -/
def isPassThrough : OperatorType → Bool
  | .filter | .distinct | .split | .splitOutput | .sort | .limit | .store => true
  | _ => false

end OperatorType

/-- Which rows without a partner a join keeps. -/
inductive JoinType where
  | inner | left | right | full
deriving DecidableEq, Repr, Inhabited

def JoinType.name : JoinType → String
  | .inner => "Inner"
  | .left => "Left"
  | .right => "Right"
  | .full => "Full"

def JoinType.all : List JoinType := [.inner, .left, .right, .full]

/-- The keys that are needed of some map columns, by place; both places and keys ascend. -/
abbrev KeyTable := List (Nat × List String)

/-- The parameters of a load. -/
structure Load where
  location : String
  /-- The columns as the script declares them, if it does. -/
  declared : Option Schema := none
  /-- Map columns of which only some keys are needed; all keys of other columns are. -/
  requiredKeys : Option KeyTable := none
deriving Inhabited

/-- A column that a `ForEach` generates. -/
structure Item where
  formula : Formula
  /-- Whether a tuple or bag is spread out over columns or rows. -/
  flatten : Bool := false
  name : Option String := none
  /-- The identity of a computed column; a plain column keeps its own. -/
  uid : Uid := ⟨0⟩
deriving Inhabited

/-- One key of a sort. -/
structure SortKey where
  formula : Formula
  ascending : Bool := true
deriving Inhabited

/-- What an operator does, with its parameters. -/
inductive Operation where
  | load (l : Load)
  | store (location : String)
  | filter (predicate : Formula)
  /-- The keys are listed by input; those of an input read its columns. -/
  | join (type : JoinType) (keys : List (List Formula))
  | forEach (items : List Item)
  /-- The identities of the output columns are chosen when the schema is first derived. -/
  | union (outputUids : List Uid)
  | cross
  | distinct
  | split
  | splitOutput (condition : Formula)
  | sort (keys : List SortKey)
  | limit (count : Nat)
deriving Inhabited

namespace Operation

def type : Operation → OperatorType
  | .load _ => .load
  | .store _ => .store
  | .filter _ => .filter
  | .join _ _ => .join
  | .forEach _ => .forEach
  | .union _ => .union
  | .cross => .cross
  | .distinct => .distinct
  | .split => .split
  | .splitOutput _ => .splitOutput
  | .sort _ => .sort
  | .limit _ => .limit

/-- The formulas among the parameters. -/
def formulas : Operation → List Formula
  | .filter p => [p]
  | .join _ keys => keys.flatten
  | .forEach items => items.map Item.formula
  | .splitOutput c => [c]
  | .sort keys => keys.map SortKey.formula
  | _ => []

/-- Where rows are read from or written to. -/
def location? : Operation → Option String
  | .load l => some l.location
  | .store location => some location
  | _ => none

def predicate? : Operation → Option Formula
  | .filter p => some p
  | _ => none

/-- Whether two lists have the same length and related elements. -/
def pairwise {α : Type} (related : α → α → Bool) (as bs : List α) : Bool :=
  as.length == bs.length && (as.zip bs).all fun (a, b) => related a b

/-- Whether two declared schemas agree up to the identities of columns. -/
def sameDeclaration : Option Schema → Option Schema → Bool := Schema.nestedSameShape

/-- Whether two operations have the same parameters. Identities of columns do not matter. -/
def same : Operation → Operation → Bool
  | .load a, .load b =>
    a.location == b.location && a.requiredKeys == b.requiredKeys &&
      sameDeclaration a.declared b.declared
  | .store a, .store b => a == b
  | .filter a, .filter b => a.same b
  | .join s as, .join t bs => s == t && pairwise (pairwise Formula.same) as bs
  | .forEach as, .forEach bs =>
    pairwise (fun a b => a.flatten == b.flatten && a.name == b.name && a.formula.same b.formula)
      as bs
  | .splitOutput a, .splitOutput b => a.same b
  | .sort as, .sort bs =>
    pairwise (fun a b => a.ascending == b.ascending && a.formula.same b.formula) as bs
  | .limit a, .limit b => a == b
  | .union _, .union _ => true
  | .cross, .cross => true
  | .distinct, .distinct => true
  | .split, .split => true
  | _, _ => false

/-- Gives generated columns that have no identity yet a fresh one. -/
def withItemUids : List Item → UidSupply → List Item × UidSupply
  | [], supply => ([], supply)
  | item :: rest, supply =>
    let (uid, supply) := if item.uid.val = 0 then supply.take else (item.uid, supply)
    let (rest, supply) := withItemUids rest supply
    ({ item with uid } :: rest, supply)

/-- Gives the declared and generated columns that have no identity yet a fresh one. A declared
schema is numbered anew as a whole if any of its columns has none. -/
def withUids : Operation → UidSupply → Operation × UidSupply
  | .load l, supply =>
    match l.declared with
    | some s =>
      if (Schema.allUids s).any (·.val == 0) then
        let (s, supply) := Schema.withFreshUids s supply
        (.load { l with declared := some s }, supply)
      else (.load l, supply)
    | none => (.load l, supply)
  | .forEach items, supply =>
    let (items, supply) := withItemUids items supply
    (.forEach items, supply)
  | o, supply => (o, supply)

end Operation

/-- An operator of a plan. -/
structure Operator where
  /-- The name under which a script refers to it. -/
  name : Option String := none
  operation : Operation
  /-- The output schema if it was derived; it may have turned out to be unknown. -/
  memo : Option (Option Schema) := none
deriving Inhabited

namespace Operator

def type (op : Operator) : OperatorType := op.operation.type

/-- The operator without its derived schema. -/
def forget (op : Operator) : Operator := { op with memo := none }

/-- Whether two operators have the same name and parameters. -/
def same (a b : Operator) : Bool := a.name == b.name && a.operation.same b.operation

/-- Whether the output schema was derived. -/
def isDerived (op : Operator) : Bool := op.memo.isSome

/-- The output schema as far as it was derived and is known. -/
def schema? (op : Operator) : Option Schema := op.memo.join

end Operator

/-!
## The text of operators

`Operator.describe` names an operator in messages, `Operator.text` shows it with its parameters on
one line.
-/

def commaList (parts : List String) : String := Text.join ", " parts

/-- The keys needed of map columns, for instance `$0[a,b]`. -/
def KeyTable.text (table : KeyTable) : String :=
  commaList (table.map fun (column, keys) => s!"${column}[" ++ Text.join "," keys ++ "]")

def Load.text (l : Load) : String :=
  "'" ++ l.location ++ "'" ++
    (match l.declared with
      | some s => " AS " ++ s.text
      | none => "") ++
    (match l.requiredKeys with
      | some table => " KEYS " ++ KeyTable.text table
      | none => "")

def Item.text (item : Item) : String :=
  (if item.flatten then "FLATTEN(" ++ item.formula.text ++ ")" else item.formula.text) ++
    (match item.name with
      | some n => " AS " ++ n
      | none => "")

def SortKey.text (key : SortKey) : String :=
  key.formula.text ++ (if key.ascending then " ASC" else " DESC")

/-- The parameters of an operation; empty if it has none. -/
def Operation.params : Operation → String
  | .load l => l.text
  | .store location => "'" ++ location ++ "'"
  | .filter p => p.text
  | .join t keys =>
    t.name ++ " BY " ++ commaList (keys.map fun ks => "(" ++ commaList (ks.map Formula.text) ++ ")")
  | .forEach items => commaList (items.map Item.text)
  | .splitOutput c => c.text
  | .sort keys => commaList (keys.map SortKey.text)
  | .limit n => toString n
  | .union _ | .cross | .distinct | .split => ""

namespace Operator

/-- The type of an operator and its name, if it has one. -/
def describe (op : Operator) : String :=
  match op.name with
  | some a => s!"{op.type} '{a}'"
  | none => op.type.name

/-- An operator on one line, for instance `b = Filter ($0 > 3)`. -/
def text (op : Operator) : String :=
  let params := op.operation.params
  (match op.name with
    | some a => a ++ " = "
    | none => "") ++ op.type.name ++ (if params.isEmpty then "" else " " ++ params)

end Operator

end Dataflow

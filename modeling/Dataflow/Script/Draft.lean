import Dataflow.Plan.Schemas
import Dataflow.Script.Expression
import Dataflow.Script.Statement

/-!
# Plans under construction

A draft is a plan that grows statement by statement, and a table of the names by which statements
refer to operators. A name is bound to the operator that got it last. When a plan was rewritten, a
name whose operator is gone means the operator that has the name now.

A step that fails keeps the operators that it had added by then.
-/

namespace Dataflow

/-- A plan under construction and the names of its operators. -/
structure Draft where
  plan : Plan := {}
  names : Std.TreeMap String NodeId := {}
deriving Inhabited

namespace Draft

/-- A step of the construction. -/
abbrev Edit := EStateM Error Draft

/-- Changes the plan of a draft. -/
def onPlan {β : Type} (edit : Plan.Edit β) : Edit β := fun d =>
  match edit d.plan with
  | .ok b plan => .ok b { d with plan }
  | .error e plan => .error e { d with plan }

/-- Stops with the error of a result, if it is one. -/
def ofResult {β : Type} : Result β → Edit β
  | .ok b => pure b
  | .error e => throw e

/-! ## Names -/

/-- The operator that a bound name means now. -/
def current? (d : Draft) (name : String) (id : NodeId) : Option NodeId :=
  if d.plan.contains id then some id else d.plan.findAlias? name

/-- The operator that `user` calls by a name. -/
def lookup (d : Draft) (name user : String) : Result NodeId :=
  match d.names[name]? >>= d.current? name with
  | some id => .ok id
  | none => .error (.unknownColumn name user)

/-- The operator that a script calls by a name. -/
def node (d : Draft) (name : String) : Result NodeId := d.lookup name "script"

/-- The table of names with what they mean now; names that mean nothing are left out. -/
def liveNames (d : Draft) : Std.TreeMap String NodeId := d.names.filterMap d.current?

/-- Binds the names to what they mean now, and counts the bindings that changed. -/
def refresh (d : Draft) : Nat × Draft :=
  let live := d.liveNames
  (d.names.toList.countP fun (name, id) => live[name]? != some id, { d with names := live })

/-- Binds a name. -/
def bind (name : String) (id : NodeId) : Edit Unit :=
  modify fun d => { d with names := d.names.insert name id }

/-! ## Adding operators -/

/-- Makes a formula of an expression that reads the listed inputs. -/
def compile (e : Expr) (inputs : List NodeId) (user : String) : Edit Formula := onPlan do
  let schemas ← inputs.mapM Plan.schema
  Plan.ofResult (do Formula.ofExpr (← e.resolve schemas user))

/-- Adds a named operator behind its inputs. -/
def append (name : String) (inputs : List NodeId) (operation : Operation) : Edit NodeId := do
  let id ← onPlan (Plan.append { name := some name, operation } inputs)
  bind name id
  return id

/-- How an error calls the operator that a statement adds. -/
def describe (t : OperatorType) (name : String) : String := s!"{t} '{name}'"

/-- The operator that a statement takes as input. -/
def input (name user : String) : Edit NodeId := do ofResult ((← get).lookup name user)

/-- Derives the schema of an operator, so that what is wrong with it is known at once. -/
def checked (id : NodeId) : Edit NodeId := do
  discard (onPlan (Plan.schema id))
  return id

def load (name location : String) (declared : Option Schema) : Edit NodeId :=
  append name [] (.load { location, declared })

def filter (name source : String) (predicate : Expr) : Edit NodeId := do
  let user := describe .filter name
  let id ← input source user
  append name [id] (.filter (← compile predicate [id] user))

/-- An item of a `ForEach` before its expression is resolved. -/
structure Item where
  expr : Expr
  flatten : Bool := false
  name : Option String := none
deriving Inhabited

def forEach (name source : String) (items : List Item) : Edit NodeId := do
  let user := describe .forEach name
  let id ← input source user
  let items ← items.mapM fun item => do
    return { formula := ← compile item.expr [id] user, flatten := item.flatten, name := item.name }
  checked (← append name [id] (.forEach items))

/-- The formulas of the keys of each input, which read that input. -/
def joinKeys (ids : List NodeId) (user : String) (keys : List (List Expr)) :
    Edit (List (List Formula)) :=
  keys.zipIdx.mapM fun (es, i) => es.mapM fun e => compile (e.onInput i) ids user

/-- Whether all lists are equally long. -/
def sameLengths {α : Type} : List (List α) → Bool
  | [] => true
  | l :: rest => rest.all (·.length == l.length)

/-- A join of inputs, each with its keys. -/
def join (name : String) (sources : List (String × List Expr)) (type : JoinType) : Edit NodeId := do
  let user := describe .join name
  let ids ← sources.mapM fun (source, _) => input source user
  let keys ← joinKeys ids user (sources.map Prod.snd)
  unless sameLengths keys do throw (.plan (.joinKeyCounts user))
  checked (← append name ids (.join type keys))

def cross (name : String) (sources : List String) : Edit NodeId := do
  let ids ← sources.mapM (input · (describe .cross name))
  checked (← append name ids .cross)

def union (name : String) (sources : List String) : Edit NodeId := do
  let ids ← sources.mapM (input · (describe .union name))
  append name ids (.union [])

def distinct (name source : String) : Edit NodeId := do
  append name [← input source (describe .distinct name)] .distinct

/-- Adds a branch behind a split. -/
def branch (split : NodeId) (name : String) (condition : Expr) : Edit NodeId := do
  let condition ← compile condition [split] (describe .splitOutput name)
  append name [split] (.splitOutput condition)

/-- A split with its branches. -/
def split (source : String) (branches : List (String × Expr)) : Edit (List NodeId) := do
  let id ← input source OperatorType.split.name
  let split ← onPlan (Plan.append { operation := .split } [id])
  branches.mapM fun (name, condition) => branch split name condition

/-- A sort by keys that ascend or not. -/
def sort (name source : String) (keys : List (Expr × Bool)) : Edit NodeId := do
  let user := describe .sort name
  let id ← input source user
  let keys ← keys.mapM fun (e, ascending) => do
    return { formula := ← compile e [id] user, ascending }
  append name [id] (.sort keys)

def limit (name source : String) (count : Nat) : Edit NodeId := do
  append name [← input source (describe .limit name)] (.limit count)

/-- Stores have no name. -/
def store (source location : String) : Edit NodeId := do
  let id ← input source (describe .store location)
  onPlan (Plan.append { operation := .store location } [id])

end Draft

/-! ## Statements -/

mutual

/-- The column that a statement declares. -/
def ColumnSpec.field : ColumnSpec → Result Field
  | .mk name type inner => do
    match DataType.read? type with
    | none => throw (.schema (.unknownType type name))
    | some t => return { name := some name, type := t, nested := ← ColumnSpec.nestedSchema inner }
termination_by structural c => c

def ColumnSpec.nestedSchema : Option (List ColumnSpec) → Result (Option Schema)
  | none => .ok none
  | some cs => do return some (← ColumnSpec.schema cs)
termination_by structural cs => cs

/-- The schema that a statement declares. -/
def ColumnSpec.schema : List ColumnSpec → Result Schema
  | [] => .ok []
  | c :: rest => do
    let f ← c.field
    return f :: (← ColumnSpec.schema rest)
termination_by structural cs => cs

end

namespace Statement

/-- Reads the expressions of a statement, one after the other. -/
def expressions {α β : Type} (source : α → Yaml.Value) (make : α → Expr → β) (items : List α) :
    Result (List β) :=
  items.mapM fun a => do return make a (← Expr.ofYaml (source a))

/-- Carries a statement out on a draft. Locations are taken as they are written. Returns the
operators that go by the names of the statement. -/
def apply (s : Statement) : Draft.Edit (List NodeId) := do
  match s with
  | .load name path columns =>
    let declared ← Draft.ofResult (ColumnSpec.nestedSchema columns)
    return [← Draft.load name path declared]
  | .filter name input predicate =>
    return [← Draft.filter name input (← Draft.ofResult (Expr.ofYaml predicate))]
  | .forEach name input items =>
    let items ← Draft.ofResult <| expressions ItemSpec.expr
      (fun i expr => ({ expr, flatten := i.flatten, name := i.name } : Draft.Item)) items
    return [← Draft.forEach name input items]
  | .join name inputs type =>
    let sources ← Draft.ofResult <| inputs.mapM fun i => do
      return (i.input, ← expressions id (fun _ e => e) i.keys)
    return [← Draft.join name sources type]
  | .cross name inputs => return [← Draft.cross name inputs]
  | .union name inputs => return [← Draft.union name inputs]
  | .distinct name input => return [← Draft.distinct name input]
  | .split input branches =>
    let branches ← Draft.ofResult <|
      expressions BranchSpec.condition (fun b e => (b.name, e)) branches
    Draft.split input branches
  | .sort name input keys =>
    let keys ← Draft.ofResult <|
      expressions SortSpec.expr (fun k e => (e, !k.descending)) keys
    return [← Draft.sort name input keys]
  | .limit name input count => return [← Draft.limit name input count]
  | .store input path => return [← Draft.store input path]

end Statement

end Dataflow

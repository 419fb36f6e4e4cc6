import Dataflow.Operator.Basic
import Dataflow.Yaml.Record

/-!
# Statements of scripts

What a script can say. A statement is a mapping; its entry `op` says what it does, and the other
entries are read as a record with the names that go with that. Expressions are kept as they are
written until the statement is carried out.
-/

namespace Dataflow

open Yaml (Document Node Outcome Reading)

/-- A column of a declared schema. -/
inductive ColumnSpec where
  | mk (name type : String) (columns : Option (List ColumnSpec))
deriving Inhabited

/-- An item of a `foreach`. -/
structure ItemSpec where
  expr : Yaml.Value
  flatten : Bool := false
  name : Option String := none
deriving Inhabited

/-- An input of a join with its keys. -/
structure JoinSpec where
  input : String
  keys : List Yaml.Value
deriving Inhabited

/-- A branch of a split. -/
structure BranchSpec where
  name : String
  condition : Yaml.Value
deriving Inhabited

/-- A key of a sort. -/
structure SortSpec where
  expr : Yaml.Value
  descending : Bool := false
deriving Inhabited

/-- A statement. -/
inductive Statement where
  | load (name path : String) (columns : Option (List ColumnSpec))
  | filter (name input : String) (predicate : Yaml.Value)
  | forEach (name input : String) (items : List ItemSpec)
  | join (name : String) (inputs : List JoinSpec) (type : JoinType)
  | cross (name : String) (inputs : List String)
  | union (name : String) (inputs : List String)
  | distinct (name input : String)
  | split (input : String) (branches : List BranchSpec)
  | sort (name input : String) (keys : List SortSpec)
  | limit (name input : String) (count : Nat)
  | store (input path : String)
deriving Inhabited

namespace Statement

open Yaml.Value

/-! ## Parts of statements -/

/-- A value kept as it is, which has to be free of repeated keys. -/
def asIs (v : Yaml.Value) : Outcome Yaml.Value := v.checked

mutual

/-- Reads the columns of a schema. -/
def columns : Yaml.Value → Outcome (List ColumnSpec)
  | .sequence items => columnItems items
  | v => v.wrong "a sequence"
termination_by structural v => v

def columnItems : List Yaml.Value → Outcome (List ColumnSpec)
  | [] => .ok []
  | v :: rest => do
    let c ← column v
    return c :: (← columnItems rest)
termination_by structural vs => vs

/-- Reads a column. -/
def column : Yaml.Value → Outcome ColumnSpec
  | .mapping entries => do
    let names := ["name", "type", "fields"]
    let r ← recordOf names entries
    return .mk (← r.get "name" asText) (← r.get "type" asText) (← nestedColumns names entries)
  | .sequence [name, type] => do return .mk (← asText name) (← asText type) none
  | .sequence [name, type, .null] => do return .mk (← asText name) (← asText type) none
  | .sequence [name, type, inner] => do
    return .mk (← asText name) (← asText type) (some (← columns inner))
  | v => v.wrong "a column"
termination_by structural v => v

/-- Reads the columns inside of a column, if it has any. -/
def nestedColumns (names : List String) :
    List (Yaml.Value × Yaml.Value) → Outcome (Option (List ColumnSpec))
  | [] => .ok none
  | (k, v) :: rest => do
    if (← nameOf names k) = some "fields" then
      if v.isNull then return none else return some (← columns v)
    else nestedColumns names rest
termination_by structural entries => entries

end

def item (v : Yaml.Value) : Outcome ItemSpec := do
  let r ← v.asRecord ["expr", "flatten", "as"]
  return {
    expr := ← r.get "expr" asIs
    flatten := ← r.getD "flatten" asFlag false
    name := ← r.get? "as" asText }

def joinInput (v : Yaml.Value) : Outcome JoinSpec := do
  let r ← v.asRecord ["input", "by"]
  return { input := ← r.get "input" asText, keys := ← r.get "by" (asList asIs) }

def branch (v : Yaml.Value) : Outcome BranchSpec := do
  let r ← v.asRecord ["alias", "if"]
  return { name := ← r.get "alias" asText, condition := ← r.get "if" asIs }

def sortKey (v : Yaml.Value) : Outcome SortSpec := do
  let r ← v.asRecord ["expr", "desc"]
  return { expr := ← r.get "expr" asIs, descending := ← r.getD "desc" asFlag false }

/-- The word of a script for a type of joins. -/
def joinWord (t : JoinType) : String := Text.lower t.name

/-! ## Statements -/

/-- The words of a script for what a statement does, with the names of its other entries. -/
def forms : List (String × List String) := [
  ("load", ["alias", "path", "schema"]),
  ("filter", ["alias", "input", "by"]),
  ("foreach", ["alias", "input", "generate"]),
  ("join", ["alias", "inputs", "type"]),
  ("cross", ["alias", "inputs"]),
  ("union", ["alias", "inputs"]),
  ("distinct", ["alias", "input"]),
  ("split", ["input", "into"]),
  ("sort", ["alias", "input", "by"]),
  ("limit", ["alias", "input", "count"]),
  ("store", ["input", "path"])]

/-- Reads the statement that does what `word` says. -/
def ofRecord (word : String) (r : Record) : Outcome Statement := do
  let name := r.get "alias" asText
  let input := r.get "input" asText
  let inputs := r.get "inputs" (asList asText)
  match word with
  | "load" => return .load (← name) (← r.get "path" asText) (← r.get? "schema" columns)
  | "filter" => return .filter (← name) (← input) (← r.get "by" asIs)
  | "foreach" => return .forEach (← name) (← input) (← r.get "generate" (asList item))
  | "join" =>
    return .join (← name) (← r.get "inputs" (asList joinInput))
      (← r.getD "type" (asVariant joinWord JoinType.all) .inner)
  | "cross" => return .cross (← name) (← inputs)
  | "union" => return .union (← name) (← inputs)
  | "distinct" => return .distinct (← name) (← input)
  | "split" => return .split (← input) (← r.get "into" (asList branch))
  | "sort" => return .sort (← name) (← input) (← r.get "by" (asList sortKey))
  | "limit" => return .limit (← name) (← input) (← r.get "count" asCount)
  | "store" => return .store (← input) (← r.get "path" asText)
  | _ => throw (.unknownVariant word (forms.map Prod.fst))

/-- Reads the statement that does what `word` says, with its other entries or items. -/
def ofParts (word : String) (rest : Yaml.Value) : Outcome Statement := do
  match forms.lookup word with
  | some names => ofRecord word (← rest.asRecord names)
  | none => throw (.unknownVariant word (forms.map Prod.fst))

/-- Reads the entries of a statement: what it does, and all others. What it does is the text of a
scalar, however that is written. -/
def entriesOf (d : Document) (depth : Nat) :
    List (Node × Node) → Reading (Option String × List (Yaml.Value × Yaml.Value))
  | [] => return (none, [])
  | (key, node) :: rest => do
    match ← Yaml.Value.ofNode d false depth key with
    | .string "op" =>
      let word ← d.textOf node
      match ← entriesOf d depth rest with
      | (none, entries) => return (some word, entries)
      | (some _, _) => throw (.duplicateField "op")
    | key =>
      let v ← Yaml.Value.ofNode d false depth node
      let (word, entries) ← entriesOf d depth rest
      return (word, (key, v) :: entries)

/-- Reads a statement that lies in fewer than `depth` collections. In a sequence what it does comes
first. -/
def ofNode (d : Document) (depth : Nat) (node : Node) : Reading Statement := do
  let unnamed (tag : Option Yaml.Tag) : Reading Unit := do
    if (tag.bind Yaml.Tag.word?).isSome then throw (.tagged "a statement")
  match ← d.follow node, depth with
  | .mapping tag entries, depth + 1 =>
    unnamed tag
    match ← entriesOf d depth entries with
    | (some word, entries) => ofParts word (.mapping entries)
    | (none, _) => throw (.missingField "op")
  | .sequence tag (op :: items), depth + 1 =>
    unnamed tag
    let word ← d.textOf op
    ofParts word (.sequence (← items.mapM (Yaml.Value.ofNode d false depth)))
  | _, _ => throw (.wrongType "something else" "a statement")

/-- Reads a statement from a text of its own. -/
def ofText (text : String) : Outcome Statement := do
  match ← Document.ofText? text with
  | some d => d.read fun d root => ofNode d Yaml.Value.maxDepth root
  | none => throw (.wrongType "nothing" "a statement")

end Statement

end Dataflow

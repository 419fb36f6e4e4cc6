import Dataflow.Operator.Basic

/-!
# Output schemas

How the output schema of an operator follows from its parameters and the schemas of its inputs. A
schema may be unknown (`none`), and an unknown input usually makes the output unknown.
-/

namespace Dataflow.Operator

open Dataflow.Expr (Inputs)

/-! ## Union -/

/-- The schemas of all inputs, if all are known. -/
def allKnown? (inputs : Inputs) : Option (List Schema) := inputs.mapM id

/-- The elements of a list without later repetitions. -/
def firsts {α : Type} [BEq α] (xs : List α) : List α :=
  xs.foldl (fun kept x => if kept.contains x then kept else kept ++ [x]) []

/-- Column `i` of a union: it has an identity of its own and is computed from that column of every
input. -/
def unionField (known : List Schema) (uid : Uid) (f : Field) (i : Nat) : Field :=
  { f with uid, parents := firsts (known.filterMap fun s => (s[i]?).map Field.uid) }

/-- The columns merged over all inputs; none if they do not fit. -/
def mergeAll? : List Schema → Option Schema
  | [] => none
  | first :: rest => rest.foldlM (fun merged s => Schema.merge? merged s) first

/-- As many fresh identities as asked for. -/
def takeUids : Nat → UidSupply → List Uid × UidSupply
  | 0, supply => ([], supply)
  | n + 1, supply =>
    let (uid, supply) := supply.take
    let (rest, supply) := takeUids n supply
    (uid :: rest, supply)

/-- The output identities of a union: those chosen before, if their number fits. -/
def unionUids (chosen : List Uid) (columns : Nat) (supply : UidSupply) : List Uid × UidSupply :=
  if chosen.length = columns then (chosen, supply) else takeUids columns supply

/-- The schema of a union with the output identities to be remembered. -/
def unionSchema (chosen : List Uid) (inputs : Inputs) (supply : UidSupply) :
    Option Schema × List Uid × UidSupply :=
  match allKnown? inputs with
  | none => (none, chosen, supply)
  | some known =>
    match mergeAll? known with
    | none => (none, chosen, supply)
    | some merged =>
      let (uids, supply) := unionUids chosen merged.length supply
      let fields := (merged.zip uids).zipIdx.map fun ((f, uid), i) => unionField known uid f i
      (some fields, uids, supply)

/-! ## Cross and Join -/

/-- The columns of one named input under their full names, and all full names so far. -/
def qualify (operator input : String) :
    List Field → List String → Result (List Field × List String)
  | [], taken => .ok ([], taken)
  | f :: rest, taken =>
    match f.name with
    | none => do
      let (rest, taken) ← qualify operator input rest taken
      return (f :: rest, taken)
    | some n =>
      let full := input ++ "::" ++ n
      if taken.contains full then .error (.duplicateColumn full operator)
      else do
        let (rest, taken) ← qualify operator input rest (full :: taken)
        return ({ f with name := some full } :: rest, taken)

/-- The columns of all inputs side by side; those of a named input get its name in front. -/
def concatSchema (operator : String) :
    List (Option Schema × Option String) → List String → Result (Option Schema)
  | [], _ => .ok (some [])
  | (none, _) :: _, _ => .ok none
  | (some s, none) :: rest, taken => do
    return (← concatSchema operator rest taken).map (s ++ ·)
  | (some s, some input) :: rest, taken => do
    let (fields, taken) ← qualify operator input s taken
    return (← concatSchema operator rest taken).map (fields ++ ·)

/-! ## ForEach -/

/-- The name of a column that was inside another one. -/
def innerName (outer inner : Option String) : Option String :=
  match outer, inner with
  | some o, some i => some (o ++ "::" ++ i)
  | none, i => i
  | some _, none => none

/-- The columns that one item generates, each with whether it comes from flattening; none if they
are not known. -/
def itemFields (operator : String) (inputs : Inputs) (item : Item) :
    Result (Option (List (Field × Bool))) :=
  let input := Expr.schemaOf? inputs 0
  match item.formula.asColumn? with
  | some (_, column) =>
    match input with
    | none => .ok none
    | some schema =>
      match schema[column]? with
      | none => .error (.schema (.columnRange operator column schema.length))
      | some field =>
        if item.flatten && field.type.isNested then
          .ok (field.nested.map fun inner => inner.map fun f =>
            ({ f with name := innerName field.name f.name, parents := [field.uid] }, true))
        else .ok (some [({ field with name := item.name.or field.name }, false)])
  | none =>
    let columns := item.formula.columns
    if !columns.isEmpty && input.isNone then .ok none
    else
      let type := item.formula.type inputs
      if item.flatten && type.isNested then .ok none
      else
        let parents := match input with
          | some schema => firsts (columns.filterMap fun (_, i) => (schema[i]?).map Field.uid)
          | none => []
        .ok (some [({ name := item.name, type, uid := item.uid, parents }, false)])

/-- The columns that all items generate. -/
def allItemFields (operator : String) (inputs : Inputs) :
    List Item → Result (Option (List (Field × Bool)))
  | [] => .ok (some [])
  | item :: rest => do
    match ← itemFields operator inputs item with
    | none => return none
    | some fields => return (← allItemFields operator inputs rest).map (fields ++ ·)

/-- Checks that no name stands for two columns, unless flattening made both of them. `seen` holds
the names so far, each with whether its first column comes from flattening. -/
def checkNames (operator : String) : List (Field × Bool) → List (String × Bool) → Result Unit
  | [], _ => .ok ()
  | (f, flattened) :: rest, seen =>
    match f.name with
    | none => checkNames operator rest seen
    | some n =>
      match seen.lookup n with
      | none => checkNames operator rest ((n, flattened) :: seen)
      | some first =>
        if first && flattened then checkNames operator rest seen
        else .error (.duplicateColumn n operator)

/-- The schema of generated columns. -/
def forEachSchema (operator : String) (items : List Item) (inputs : Inputs) :
    Result (Option Schema) := do
  match ← allItemFields operator inputs items with
  | none => return none
  | some fields =>
    checkNames operator fields []
    return some (fields.map Prod.fst)

/-! ## All operators -/

/-- The output schema of an operator whose inputs have the given schemas and names. A union may take
fresh identities and remembers them. -/
def deriveSchema (op : Operator) (inputs : Inputs) (names : List (Option String))
    (supply : UidSupply) : Result (Option Schema × Operation × UidSupply) :=
  match op.operation with
  | .load l => .ok (l.declared, op.operation, supply)
  | .union chosen =>
    let (schema, uids, supply) := unionSchema chosen inputs supply
    .ok (schema, .union uids, supply)
  | .cross | .join _ _ => do
    let schema ← concatSchema op.describe (inputs.zip names) []
    return (schema, op.operation, supply)
  | .forEach items => do
    let schema ← forEachSchema op.describe items inputs
    return (schema, op.operation, supply)
  | _ => .ok (Expr.schemaOf? inputs 0, op.operation, supply)

end Dataflow.Operator

import Dataflow.Json.Basic
import Dataflow.Schema.Basic

/-!
# Schemas as JSON

The JSON form of schemas, and how it is read back.
-/

namespace Dataflow

/-! ## Writing -/

mutual

def Field.toJson : Field → Json
  | ⟨name, type, nested, uid, parents⟩ =>
    .object ([("alias", match name with
        | some s => .string s
        | none => .null), ("data_type", .string type.name)] ++ Schema.nestedToJson nested ++
      [("uid", .int uid.val.toNat), ("parents", .array (parents.map fun u => .int u.val.toNat))])

def Schema.nestedToJson : Option (List Field) → List (String × Json)
  | none => []
  | some s => [("nested", .object [("fields", .array (Schema.fieldsToJson s))])]

def Schema.fieldsToJson : List Field → List Json
  | [] => []
  | f :: rest => f.toJson :: Schema.fieldsToJson rest

end

def Schema.toJson (s : Schema) : Json := .object [("fields", .array (Schema.fieldsToJson s))]

/-! ## Reading -/

def Uid.ofJson? (j : Json) : Option Uid := j.asCount?.map fun n => ⟨.ofNat n⟩

/-- A field from the values of its members. -/
def Field.ofParts? (name type : Json) (nested : Option (List Field)) (uid : Json)
    (parents : Option Json) : Option Field := do
  return {
    name := ← name.asOptional? Json.asText?
    type := ← type.asWord? >>= DataType.ofName?
    nested
    uid := ← Uid.ofJson? uid
    parents := ← match parents with
      | some j => j.asList? Uid.ofJson?
      | none => some [] }

mutual

def Schema.ofJson? : Json → Option (List Field)
  | .object members => if Json.isRecord ["fields"] members then Schema.ofMembers? members else none
  | .array [.array items] => Schema.fieldsOfJson? items
  | _ => none
termination_by structural j => j

/-- The fields among the members of an object. -/
def Schema.ofMembers? : List (String × Json) → Option (List Field)
  | [] => none
  | (name, j) :: rest =>
    if name = "fields" then
      match j with
      | .array items => Schema.fieldsOfJson? items
      | _ => none
    else Schema.ofMembers? rest
termination_by structural members => members

def Schema.fieldsOfJson? : List Json → Option (List Field)
  | [] => some []
  | j :: rest => do
    let f ← Field.ofJson? j
    return f :: (← Schema.fieldsOfJson? rest)
termination_by structural items => items

def Field.ofJson? : Json → Option Field
  | .object members => do
    if !Json.isRecord ["alias", "data_type", "nested", "uid", "parents"] members then none
    let nested ← Field.nestedOfMembers? members
    Field.ofParts? ((members.lookup "alias").getD .null) (← members.lookup "data_type") nested
      (← members.lookup "uid") (members.lookup "parents")
  | .array [name, type, .null, uid] => Field.ofParts? name type none uid none
  | .array [name, type, .null, uid, parents] => Field.ofParts? name type none uid (some parents)
  | .array [name, type, nested, uid] => do
    Field.ofParts? name type (some (← Schema.ofJson? nested)) uid none
  | .array [name, type, nested, uid, parents] => do
    Field.ofParts? name type (some (← Schema.ofJson? nested)) uid (some parents)
  | _ => none
termination_by structural j => j

/-- The inner schema among the members of a field. -/
def Field.nestedOfMembers? : List (String × Json) → Option (Option (List Field))
  | [] => some none
  | (name, j) :: rest =>
    if name = "nested" then if j.isNull then some none else (Schema.ofJson? j).map some
    else Field.nestedOfMembers? rest
termination_by structural members => members

end

end Dataflow

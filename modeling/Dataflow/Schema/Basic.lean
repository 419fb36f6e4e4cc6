import Dataflow.Id
import Dataflow.Schema.DataType

/-!
# Schemas

A schema lists the columns of a relation. A `Field` describes one column: an optional name, a type,
the schema of the inner rows if it is a tuple or bag with a known one, the identity of the column
and the identities of the columns from which it was computed.
-/

namespace Dataflow

/-- One column. -/
structure Field where
  /-- The name, possibly behind the name of an input, as in `input::column`. -/
  name : Option String
  type : DataType
  /-- The columns of a tuple, or of the rows in a bag, if they are known. -/
  nested : Option (List Field) := none
  uid : Uid := ⟨0⟩
  /-- The columns from which this one was computed; none at a source. -/
  parents : List Uid := []
deriving Inhabited, Repr

/-- The columns of a relation, in order. -/
abbrev Schema := List Field

/-! ## Equality -/

mutual

/-- Whether two columns are equal in every respect. -/
def Field.equals : Field → Field → Bool
  | ⟨n, t, inner, u, ps⟩, ⟨n', t', inner', u', ps'⟩ =>
    n == n' && t == t' && Schema.nestedEquals inner inner' && u == u' && ps == ps'

def Schema.nestedEquals : Option (List Field) → Option (List Field) → Bool
  | none, none => true
  | some s, some t => Schema.equals s t
  | _, _ => false

def Schema.equals : List Field → List Field → Bool
  | [], [] => true
  | a :: as, b :: bs => Field.equals a b && Schema.equals as bs
  | _, _ => false

end

mutual

theorem Field.eq_of_equals : ∀ {a b : Field}, a.equals b = true → a = b
  | ⟨n, t, inner, u, ps⟩, ⟨n', t', inner', u', ps'⟩, h => by
    simp only [Field.equals, Bool.and_eq_true, beq_iff_eq] at h
    obtain ⟨⟨⟨⟨rfl, rfl⟩, hi⟩, rfl⟩, rfl⟩ := h
    rw [Schema.eq_of_nestedEquals hi]

theorem Schema.eq_of_nestedEquals : ∀ {s t : Option (List Field)},
    Schema.nestedEquals s t = true → s = t
  | none, none, _ => rfl
  | some s, some t, h => by
    simp only [Schema.nestedEquals] at h
    rw [Schema.eq_of_equals h]
  | none, some _, h => by simp [Schema.nestedEquals] at h
  | some _, none, h => by simp [Schema.nestedEquals] at h

theorem Schema.eq_of_equals : ∀ {s t : List Field}, Schema.equals s t = true → s = t
  | [], [], _ => rfl
  | a :: as, b :: bs, h => by
    simp only [Schema.equals, Bool.and_eq_true] at h
    rw [Field.eq_of_equals h.1, Schema.eq_of_equals h.2]
  | [], _ :: _, h => by simp [Schema.equals] at h
  | _ :: _, [], h => by simp [Schema.equals] at h

end

mutual

theorem Field.equals_self : ∀ a : Field, a.equals a = true
  | ⟨n, t, inner, u, ps⟩ => by simp [Field.equals, Schema.nestedEquals_self inner]

theorem Schema.nestedEquals_self : ∀ s : Option (List Field), Schema.nestedEquals s s = true
  | none => rfl
  | some s => by simp [Schema.nestedEquals, Schema.equals_self s]

theorem Schema.equals_self : ∀ s : List Field, Schema.equals s s = true
  | [] => rfl
  | a :: as => by simp [Schema.equals, Field.equals_self a, Schema.equals_self as]

end

instance : DecidableEq Field := fun a b =>
  if h : a.equals b then isTrue (Field.eq_of_equals h)
  else isFalse fun e => h (e ▸ Field.equals_self a)

/-! ## Text -/

mutual

/-- The text of a column, for instance `x:int#3`. -/
def Field.text : Field → String
  | ⟨n, t, inner, u, _⟩ =>
    (match n with
      | some n => n ++ ":"
      | none => "") ++ t.name ++ Schema.nestedText inner ++ s!"#{u.val.toNat}"

def Schema.nestedText : Option (List Field) → String
  | none => ""
  | some s => "(" ++ Text.join ", " (Schema.fieldTexts s) ++ ")"

def Schema.fieldTexts : List Field → List String
  | [] => []
  | a :: as => a.text :: Schema.fieldTexts as

end

/-- The text of a schema, for instance `(x:int#3, long#4)`. -/
def Schema.text (s : Schema) : String := Schema.nestedText (some s)

/-! ## Names -/

/-- What separates the name of an input from the name of its column. -/
def Field.separator : List Char := [':', ':']

/-- Whether the column can be meant by a name: it has that name, or that name behind the name of an
input. -/
def Field.isNamed (f : Field) (name : String) : Bool :=
  match f.name with
  | none => false
  | some full =>
    full == name || Text.behindLast? Field.separator full.toList == some name.toList

namespace Schema

/-- The first place that satisfies a test. -/
def indexWhere (s : Schema) (test : Field → Bool) : Option Nat := s.findIdx? test

/-- The column that a name means. A full name comes first; otherwise the name has to fit behind the
input name of exactly one column. -/
def indexOf? (s : Schema) (name : String) : Option Nat :=
  match s.indexWhere (·.name == some name) with
  | some i => some i
  | none =>
    match s.zipIdx.filter (·.1.isNamed name) with
    | [(_, i)] => some i
    | _ => none

/-- The first column with the given identity. -/
def indexOfUid? (s : Schema) (uid : Uid) : Option Nat := s.indexWhere (·.uid == uid)

def uids (s : Schema) : List Uid := s.map Field.uid

/-- The first name, in order of columns, that an earlier column already has. -/
def duplicateAfter (seen : List String) : Schema → Option String
  | [] => none
  | f :: rest =>
    match f.name with
    | none => duplicateAfter seen rest
    | some n => if seen.contains n then some n else duplicateAfter (n :: seen) rest

/-- The first name that occurs twice; columns without a name do not count. -/
def duplicateName? (s : Schema) : Option String := duplicateAfter [] s

end Schema

/-! ## Identities -/

mutual

/-- The identity of a column followed by those of its inner columns. -/
def Field.allUids : Field → List Uid
  | ⟨_, _, inner, u, _⟩ => u :: Schema.nestedUids inner

def Schema.nestedUids : Option (List Field) → List Uid
  | none => []
  | some s => Schema.allUids s

/-- The identities of all columns, inner ones included, each before those inside it. -/
def Schema.allUids : List Field → List Uid
  | [] => []
  | a :: as => a.allUids ++ Schema.allUids as

end

mutual

/-- Gives a column and the columns inside it fresh identities. -/
def Field.withFreshUids : Field → UidSupply → Field × UidSupply
  | ⟨n, t, inner, _, ps⟩, supply =>
    let (uid, supply) := supply.take
    let (inner, supply) := Schema.nestedWithFreshUids inner supply
    (⟨n, t, inner, uid, ps⟩, supply)

def Schema.nestedWithFreshUids :
    Option (List Field) → UidSupply → Option (List Field) × UidSupply
  | none, supply => (none, supply)
  | some s, supply =>
    let (s, supply) := Schema.withFreshUids s supply
    (some s, supply)

/-- Gives every column, inner ones included, a fresh identity. -/
def Schema.withFreshUids : List Field → UidSupply → List Field × UidSupply
  | [], supply => ([], supply)
  | a :: as, supply =>
    let (a, supply) := a.withFreshUids supply
    let (as, supply) := Schema.withFreshUids as supply
    (a :: as, supply)

end

/-! ## Shape and merging -/

mutual

/-- Whether two columns agree in names, types and nesting. -/
def Field.sameShape : Field → Field → Bool
  | ⟨n, t, inner, _, _⟩, ⟨n', t', inner', _, _⟩ =>
    n == n' && t == t' && Schema.nestedSameShape inner inner'

def Schema.nestedSameShape : Option (List Field) → Option (List Field) → Bool
  | none, none => true
  | some s, some t => Schema.sameShape s t
  | _, _ => false

/-- Whether two schemas agree in names, types and nesting. -/
def Schema.sameShape : List Field → List Field → Bool
  | [], [] => true
  | a :: as, b :: bs => a.sameShape b && Schema.sameShape as bs
  | _, _ => false

end

mutual

/-- One column for the values of two. It has the name and identity of the first one; its inner
columns are known if both are. -/
def Field.merge? : Field → Field → Option Field
  | ⟨n, t, inner, u, _⟩, b => do
    let type ← t.merge? b.type
    let inner ← Schema.nestedMerge? inner b.nested
    return ⟨n, type, inner, u, []⟩

def Schema.nestedMerge? : Option (List Field) → Option (List Field) → Option (Option (List Field))
  | some s, some t => (Schema.merge? s t).map some
  | _, _ => some none

/-- One schema for the rows of two, column by column. -/
def Schema.merge? : List Field → List Field → Option (List Field)
  | [], [] => some []
  | a :: as, b :: bs => do
    let f ← a.merge? b
    let rest ← Schema.merge? as bs
    return f :: rest
  | _, _ => none

end

end Dataflow

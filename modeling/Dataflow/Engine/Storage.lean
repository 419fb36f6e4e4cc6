import Dataflow.Engine.Records
import Dataflow.Schema.Basic

/-!
# Storage in memory

Records by location. Readers and writers hold a `Handle`, which knows the location it was last
pointed at; all handles of a storage see the same records.
-/

namespace Dataflow

/-- Records by location. -/
structure Storage where
  records : Std.TreeMap String (List Row) := {}
deriving Inhabited

namespace Storage

def get? (s : Storage) (location : String) : Option (List Row) := s.records[location]?

def contains (s : Storage) (location : String) : Bool := s.records.contains location

/-- Puts records at a location in place of those that were there. -/
def insert (s : Storage) (location : String) (records : List Row) : Storage :=
  ⟨s.records.insert location records⟩

/-- Removes what is at a location. -/
def erase (s : Storage) (location : String) : Storage := ⟨s.records.erase location⟩

/-- The locations with records, in ascending order. -/
def locations (s : Storage) : List String := s.records.keys

/-- The number of records at a location, and of their bytes as text. -/
def statistics (s : Storage) (location : String) : Option (Nat × Nat) :=
  (s.get? location).map fun records => (records.length, Records.byteSize records)

/-- A reader or writer. -/
structure Handle where
  location : Option String := none
deriving DecidableEq, Repr, Inhabited

namespace Handle

/-- A handle pointed at a location. -/
def pointAt (location : String) : Result Handle :=
  if location.isEmpty then .error (.plan .emptyLocation) else .ok ⟨some location⟩

/-- Where a handle was pointed at. -/
def current (h : Handle) : Result String :=
  match h.location with
  | some location => .ok location
  | none => .error (.storage .noLocation)

/-- The records at the location of the handle. -/
def read (h : Handle) (s : Storage) : Result (List Row) := do
  let location ← h.current
  match s.get? location with
  | some records => return records
  | none => throw (.storage (.noData location))

/-- Replaces the records at the location of the handle. -/
def write (h : Handle) (records : List Row) (s : Storage) : Result Storage := do
  return s.insert (← h.current) records

/-- Checks that the records at the location of the handle have as many cells as the schema has
columns. -/
def checkSchema (h : Handle) (schema : Schema) (s : Storage) : Result Unit := do
  let location ← h.current
  let records := (s.get? location).getD []
  match records.zipIdx.find? fun (row, _) => row.length != schema.length with
  | none => return ()
  | some (row, i) =>
    throw (.schema (.recordWidth i location row.length schema.text schema.length))

end Handle

end Storage

end Dataflow

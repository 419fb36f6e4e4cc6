import Dataflow.Error

/-!
# Locations

A location says where records are stored. It is a path, or text behind a scheme such as `s3://`.
Relative paths are completed by a current directory; paths are brought into the one form that has no
empty, `.` or `..` segments. A resolver does this for a whole script or storage.
-/

namespace Dataflow.Location

/-- What separates a scheme from the rest. -/
def schemeMark : List Char := [':', '/', '/']

/-- Adds one segment of a path to those already taken, the last of which comes first. An empty
segment and `.` add nothing and `..` takes the last segment away; there is nothing above the
root. -/
def addSegment (taken : List (List Char)) (segment : List Char) : Option (List (List Char)) :=
  if segment = [] ∨ segment = ['.'] then some taken
  else if segment = ['.', '.'] then
    match taken with
    | [] => none
    | _ :: rest => some rest
  else some (segment :: taken)

/-- The segments that remain of a path. -/
def segments? (path : List Char) : Option (List (List Char)) :=
  ((Text.splitOn '/' path).foldlM addSegment []).map List.reverse

/-- The path with the given segments. -/
def ofSegments (segments : List (List Char)) : List Char :=
  match segments with
  | [] => ['/']
  | _ => segments.flatMap fun segment => '/' :: segment

/-- The normal form of a path from the root. -/
def normalize (path : List Char) : Result (List Char) :=
  match segments? path with
  | some segments => .ok (ofSegments segments)
  | none => .error (.plan (.aboveRoot (String.ofList path)))

/-- Drops slashes at the end. -/
def dropSlashes (text : List Char) : List Char := Text.dropEnd (· == '/') text

/-- The canonical form of a trimmed location as seen from a directory. -/
def resolveTrimmed (location directory : List Char) : Result (List Char) :=
  if location.isEmpty then .error (.plan .emptyLocation)
  else match Text.splitOnce schemeMark location with
    | some (scheme, rest) =>
      if scheme = ['f', 'i', 'l', 'e'] then normalize rest else .ok (dropSlashes location)
    | none =>
      if location.head? = some '/' then normalize location
      else if directory.head? ≠ some '/' then
        .error (.plan (.relativeDirectory (String.ofList location) (String.ofList directory)))
      else normalize (dropSlashes directory ++ '/' :: location)

/-- The canonical form of a location: paths are normalized, relative ones are joined to the
directory, and what has another scheme than `file` only loses slashes at its end. -/
def resolve (location directory : String) : Result String :=
  (resolveTrimmed (Text.trimmed location.toList) directory.toList).map String.ofList

/-- The scheme of data that is only held in memory. -/
def memoryScheme : List Char := "memory://".toList

/-- The canonical form of a location of data that may be held in memory: with that scheme in front
the location is only trimmed. -/
def resolveInMemory (location directory : String) : Result String :=
  if memoryScheme.isPrefixOf location.toList then .ok (Text.trim location)
  else resolve location directory

/-- How the locations of a script are brought into canonical form, as seen from a directory. -/
structure Resolver where
  resolve : String → String → Result String

namespace Resolver

def path : Resolver := ⟨Location.resolve⟩

/-- The one for scripts whose data may be held in memory. -/
def memory : Resolver := ⟨Location.resolveInMemory⟩

instance : Inhabited Resolver := ⟨path⟩

end Resolver

end Dataflow.Location

import Dataflow.Text.Basic

/-!
# Files and directories

A tree of files and directories held as data. Paths are walked name by name, as an operating system
does it: every name but the last has to be a directory, `..` leads out of the one that was reached,
and a path that ends in a slash asks for a directory.
-/

namespace Dataflow

/-- Why a file could not be read or written. -/
inductive FileFault where
  | notFound
  | exists
  | notDirectory
  | isDirectory
  | nameTooLong
  | other (text : String)
deriving DecidableEq, Repr, Inhabited

def FileFault.message : FileFault → String
  | .notFound => "No such file or directory (os error 2)"
  | .exists => "File exists (os error 17)"
  | .notDirectory => "Not a directory (os error 20)"
  | .isDirectory => "Is a directory (os error 21)"
  | .nameTooLong => "File name too long (os error 36)"
  | .other text => text

/-- The names that lead from the outermost directory to a file or directory. -/
abbrev Segments := List String

/-- Files with their texts, and directories. A directory that holds something need not be listed. -/
structure FileTree where
  files : List (Segments × String) := []
  directories : List Segments := []
deriving Inhabited

namespace FileTree

/-! ## Walking -/

def isFile (t : FileTree) (place : Segments) : Bool := (t.files.lookup place).isSome

def isDirectory (t : FileTree) (place : Segments) : Bool :=
  place.isEmpty || t.directories.any (place.isPrefixOf ·) ||
    t.files.any fun (file, _) => place.isPrefixOf file && file != place

/-- How many bytes a name has at most. -/
def nameLimit : Nat := 255

/-- How many bytes a path has at most. -/
def pathLimit : Nat := 4095

/-- The names in a path, with the empty ones. -/
def namesOf (path : String) : List String := (Text.splitOn '/' path.toList).map String.ofList

def isAbsolute (path : String) : Bool := path.toList.head? == some '/'

/-- Where a path begins if one stands in a directory. -/
def startOf (directory : Segments) (path : String) : Segments :=
  if isAbsolute path then [] else directory

/-- Whether a name stands for the directory that it is looked up in. -/
def isHere (name : String) : Bool := name == "" || name == "."

/-- Goes on from a place to what has the given name there. -/
def step (t : FileTree) (place : Segments) (name : String) : Except FileFault Segments :=
  let next := place ++ [name]
  if !t.isDirectory place then .error .notDirectory
  else if isHere name then .ok place
  else if name == ".." then .ok place.dropLast
  else if nameLimit < name.utf8ByteSize then .error .nameTooLong
  else if t.isFile next || t.isDirectory next then .ok next
  else .error .notFound

/-- The place of what a path names. -/
def find (t : FileTree) (directory : Segments) (path : String) : Except FileFault Segments :=
  if pathLimit < path.utf8ByteSize then .error .nameTooLong
  else if path.isEmpty then .error .notFound
  else (namesOf path).foldlM t.step (startOf directory path)

/-- Whether a path names a directory. -/
def leadsToDirectory (t : FileTree) (directory : Segments) (path : String) : Bool :=
  match t.find directory path with
  | .ok place => t.isDirectory place
  | .error _ => false

def read (t : FileTree) (directory : Segments) (path : String) : Except FileFault String := do
  match t.files.lookup (← t.find directory path) with
  | some text => return text
  | none => throw .isDirectory

/-! ## Writing -/

/-- Where something new with the given path would be: a place in a directory that exists, or none if
the path does not end in a name. -/
def placeFor (t : FileTree) (directory : Segments) (path : String) :
    Except FileFault (Option Segments) := do
  if pathLimit < path.utf8ByteSize then throw .nameTooLong
  let names := ((namesOf path).reverse.dropWhile (· == "")).reverse
  match names.getLast? with
  | none => return none
  | some name =>
    let place ← names.dropLast.foldlM t.step (startOf directory path)
    if !t.isDirectory place then throw .notDirectory
    if isHere name || name == ".." then return none
    if nameLimit < name.utf8ByteSize then throw .nameTooLong
    return some (place ++ [name])

/-- Makes a directory in one that exists. -/
def makeDirectory (t : FileTree) (directory : Segments) (path : String) :
    Except FileFault FileTree := do
  match ← t.placeFor directory path with
  | none => throw .exists
  | some place =>
    if t.isFile place || t.isDirectory place then throw .exists
    return { t with directories := t.directories ++ [place] }

/-- A path and those of the directories above it, up to the first name in it. -/
def levels (path : String) : List String :=
  let names := (namesOf path).filter (!isHere ·)
  let names := if (namesOf path).head? == some "." then "." :: names else names
  let start := if isAbsolute path then "/" else ""
  let above := ((List.range names.length).filter (· != 0)).reverse.map fun n =>
    start ++ String.intercalate "/" (names.take n)
  if names.isEmpty then [] else path :: above

/-- Goes up until a directory is there or can be made; returns the paths that are still missing, the
outermost first. -/
def makeOutermost (directory : Segments) (t : FileTree) :
    List String → Except FileFault (FileTree × List String)
  | [] => .ok (t, [])
  | path :: above =>
    match t.makeDirectory directory path with
    | .ok t => .ok (t, [])
    | .error .notFound => do
      let (t, missing) ← makeOutermost directory t above
      return (t, missing ++ [path])
    | .error fault =>
      if fault = .exists && t.leadsToDirectory directory path then .ok (t, []) else .error fault

/-- Makes a directory unless it is there. -/
def ensureDirectory (directory : Segments) (t : FileTree) (path : String) :
    Except FileFault FileTree :=
  match t.makeDirectory directory path with
  | .error .exists => if t.leadsToDirectory directory path then .ok t else .error .exists
  | made => made

/-- Makes a directory and all those above it. -/
def makeDirectories (t : FileTree) (directory : Segments) (path : String) :
    Except FileFault FileTree := do
  let (t, missing) ← makeOutermost directory t (levels path)
  missing.foldlM (ensureDirectory directory) t

/-- Puts a file in a directory, which is made if need be. -/
def write (t : FileTree) (directory : Segments) (parent name text : String) :
    Except FileFault FileTree := do
  let t ← t.makeDirectories directory parent
  match ← t.placeFor directory (parent ++ "/" ++ name) with
  | none => throw .isDirectory
  | some place =>
    if t.isDirectory place then throw .isDirectory
    return { t with files := t.files.filter (·.1 != place) ++ [(place, text)] }

end FileTree

end Dataflow

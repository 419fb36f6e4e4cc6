import Dataflow.Command.Perform

/-!
# The program

Gives commands access to the files, the environment and the terminal.
-/

open Dataflow

namespace Dataflow.Terminal

/-- The variables that settings are read from. -/
def variableNames : List String := ["FLOWPLAN_MAX_ITERATIONS", "FLOWPLAN_RESCAN",
  "FLOWPLAN_FAILURE_POLICY", "FLOWPLAN_DISABLED_RULES", "FLOWPLAN_TRACE",
  "FLOWPLAN_PRUNE_MAP_KEYS"]

/-- Whether a code stands for the fault with the given number: it may be counted downwards. -/
def isFault (number code : UInt32) : Bool := code = number || code = 0 - number

def faultOf : IO.Error → FileFault
  | .noFileOrDirectory .. | .noSuchThing .. => .notFound
  | .alreadyExists .. => .exists
  | .inappropriateType _ code _ => if isFault 20 code then .notDirectory else .isDirectory
  | .invalidArgument _ code text => if isFault 36 code then .nameTooLong else .other text
  | e => .other (toString e)

/-- The outcome of access to files. -/
def guarded {β : Type} (access : IO β) : IO (Except FileFault β) := do
  try return .ok (← access)
  catch e => return .error (faultOf e)

instance : Host IO where
  environment := do
    let values ← variableNames.mapM fun name => do return (name, ← IO.getEnv name)
    return fun name => (values.lookup name).join
  directory := do return toString (← IO.currentDir)
  readFile path := guarded (IO.FS.readFile path)
  writeFile directory name text := guarded do
    IO.FS.createDirAll directory
    IO.FS.writeFile (directory ++ "/" ++ name) text
  print text := IO.print text
  printError text := IO.eprint text

end Dataflow.Terminal

def main (args : List String) : IO UInt32 := do
  return (← Command.performArguments args : Nat).toUInt32

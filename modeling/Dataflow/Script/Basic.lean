import Dataflow.Config.Override
import Dataflow.Script.Session

/-!
# Scripts

A script is a mapping of `statements` to a list of statements, with settings for the optimizer if it
has an entry `optimizer`.
-/

namespace Dataflow

/-- A script. -/
structure Script where
  optimizer : Option Yaml.Value := none
  statements : List Statement
deriving Inhabited

namespace Script

open Yaml (Document Node Reading)

/-- The settings in a script. Nothing written, or null without quotes, stands for none. -/
def readOptimizer (d : Document) (depth : Nat) (node : Node) : Reading (Option Yaml.Value) := do
  let node ← d.follow node
  let v ← (← Yaml.Value.ofNode d true depth node).checked
  match node, v with
  | .scalar none _ true, .null => return none
  | .scalar (some .null) _ true, .null => return none
  | _, v => return some v

/-- The statements of a script. -/
def readStatements (d : Document) (depth : Nat) (node : Node) : Reading (List Statement) := do
  match ← d.follow node with
  | .sequence _ items => items.mapM (Statement.ofNode d (depth - 1))
  | .scalar _ "" true => return []
  | _ => throw (.wrongType "something else" "a sequence")

/-- The entries of a script by name. Names count by how they are written; entries with other names
are not looked at. -/
def entriesOf (d : Document) : List (Node × Node) → Reading (List (String × Node))
  | [] => return []
  | (key, node) :: rest => do
    let name ← d.textOf key
    let entries ← entriesOf d rest
    if ["optimizer", "statements"].contains name then
      if entries.any (·.1 == name) then throw (.duplicateField name)
      return (name, node) :: entries
    return entries

/-- Reads a script. -/
def ofNode (d : Document) (node : Node) : Reading Script := do
  let depth := Yaml.Value.maxDepth - 1
  let .mapping _ entries ← d.follow node | throw (.wrongType "something else" "a script")
  let entries ← entriesOf d entries
  let optimizer ← match entries.lookup "optimizer" with
    | some node => readOptimizer d depth node
    | none => pure none
  match entries.lookup "statements" with
  | some node => return { optimizer, statements := ← readStatements d depth node }
  | none => throw (.missingField "statements")

/-- Reads a script. -/
def ofText (text : String) : Yaml.Outcome Script := do
  match ← Document.ofText? text with
  | some d => d.read ofNode
  | none => throw (.missingField "statements")

/-- Carries the statements of a script out in a session and compiles them as one batch. -/
def run (script : Script) : Session.Edit Unit := do
  script.statements.forM fun s => discard (Session.register s)
  discard Session.compileBatch

/-- Runs the text of a script in a session. Returns the session behind it and the settings. -/
def open? (env : Config.Environment) (text : String) (session : Session) :
    Result (Session × Config) := do
  match ofText text with
  | .error fault => throw (.plan (.script fault.message))
  | .ok script =>
    let config ← Config.ofBlock env script.optimizer
    match script.run session with
    | .ok _ session => return (session, config)
    | .error e _ => throw e

end Script

end Dataflow

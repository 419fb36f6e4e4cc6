import Dataflow.Config
import Dataflow.Yaml.Record

/-!
# Settings in a script

The `optimizer` block of a script is a mapping of settings to values. What it does not mention stays
as it is.
-/

namespace Dataflow.Config

open Yaml (Outcome)

/-- Reads one of two words for a policy: a text, or the name of null. -/
def policy {β : Type} (name : β → String) (known : List β) (v : Yaml.Value) : Outcome β := do
  let word ← match v with
    | .string word => pure word
    | .named word .null => pure word
    | v => v.wrong "a policy"
  match known.find? (name · == word) with
  | some b => return b
  | none => throw (.unknownVariant word (known.map name))

/-- Reads rule names; null stands for none. -/
def ruleNames (v : Yaml.Value) : Outcome (List String) :=
  match v.bare with
  | .null => .ok []
  | v => v.asList Yaml.Value.asText

/-- The names of the settings. -/
def settingNames : List String := [
  "max_iterations", "rescan", "failure_policy", "disabled_rules", "enable_trace",
  "validate_after_transform", "prune_map_keys"]

/-- Refuses entries whose keys are no texts, or name a setting under a name of their own. -/
def checkKeys (entries : List (Yaml.Value × Yaml.Value)) : Outcome Unit :=
  entries.forM fun (k, _) => match k, k.bare with
    | .string _, _ => .ok ()
    | _, .string name =>
      if settingNames.contains name then .error (.duplicateField name) else .ok ()
    | _, k => k.wrong "field identifier"

/-- The settings changed by the entries of a block. -/
def override (c : Config) (entries : List (Yaml.Value × Yaml.Value)) : Outcome Config := do
  let get {β : Type} (name : String) (read : Yaml.Value → Outcome β) (old : β) : Outcome β :=
    match entries.find? fun (k, _) => Yaml.Value.same k (.string name) with
    | some (_, v) => read v
    | none => .ok old
  let c : Config := {
    maxIterations := ← get "max_iterations" Yaml.Value.asCount c.maxIterations
    rescan := ← get "rescan" (policy RescanPolicy.name [.region, .whole]) c.rescan
    failurePolicy :=
      ← get "failure_policy" (policy FailurePolicy.name [.abort, .bestEffort]) c.failurePolicy
    disabledRules := ← get "disabled_rules" ruleNames c.disabledRules
    trace := ← get "enable_trace" Yaml.Value.asFlag c.trace
    validate := ← get "validate_after_transform" Yaml.Value.asFlag c.validate
    pruneMapKeys := ← get "prune_map_keys" Yaml.Value.asFlag c.pruneMapKeys }
  checkKeys entries
  return c

/-- The settings of a script: those of the environment, changed by the block if there is one. Only
settings with a block are checked. -/
def ofBlock (env : Environment) (block : Option Yaml.Value) : Result Config := do
  let base := ofEnvironment env
  match block with
  | none => return base
  | some (.mapping entries) =>
    match base.override entries with
    | .ok c =>
      c.check
      return c
    | .error fault => throw (.config (.unreadable fault.message))
  | some _ => throw (.config .blockNotMapping)

end Dataflow.Config

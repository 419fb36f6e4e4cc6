import Dataflow.Config
import Dataflow.Json.Basic

/-!
# Settings as JSON

The JSON form of settings, and how it is read back. What is not mentioned has its default.
-/

namespace Dataflow.Config

def toJson (c : Config) : Json := .object [
  ("max_iterations", .int c.maxIterations),
  ("rescan", .string c.rescan.name),
  ("failure_policy", .string c.failurePolicy.name),
  ("disabled_rules", .array (c.disabledRules.map .string)),
  ("enable_trace", .bool c.trace),
  ("validate_after_transform", .bool c.validate),
  ("prune_map_keys", .bool c.pruneMapKeys)]

def names : List String :=
  ["max_iterations", "rescan", "failure_policy", "disabled_rules", "enable_trace",
    "validate_after_transform", "prune_map_keys"]

def ofJson? (j : Json) : Option Config := do
  let ms ← j.asRecord? names
  let d : Config := {}
  return {
    maxIterations := ← Json.member? ms "max_iterations" Json.asCount? d.maxIterations
    rescan := ← Json.member? ms "rescan" (·.asWord? >>= RescanPolicy.ofName?) d.rescan
    failurePolicy :=
      ← Json.member? ms "failure_policy" (·.asWord? >>= FailurePolicy.ofName?) d.failurePolicy
    disabledRules := ← Json.member? ms "disabled_rules" (·.asList? Json.asText?) d.disabledRules
    trace := ← Json.member? ms "enable_trace" Json.asFlag? d.trace
    validate := ← Json.member? ms "validate_after_transform" Json.asFlag? d.validate
    pruneMapKeys := ← Json.member? ms "prune_map_keys" Json.asFlag? d.pruneMapKeys }

end Dataflow.Config

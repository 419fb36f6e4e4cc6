import Dataflow.Config
import Dataflow.Json.Basic
import Dataflow.Plan.MapKeys
import Dataflow.Plan.Text
import Dataflow.Plan.Validate
import Dataflow.Rewrite.FilterRules

/-!
# Optimizing plans

Rule sets are gone through one after the other, and each is repeated until no rule of it changes the
plan. A rule is applied again and again, at first anywhere and then, unless the settings say
otherwise, only in the region that its last application changed. Ceilings bound both repetitions, so
that rules that undo each other come to an end.

The result is a `Report` beside the changed plan; after an error the plan is left as it was then.
-/

namespace Dataflow

/-- One application of a rule, with the text of the plan before and after it. -/
structure TraceEntry where
  rule : String
  iteration : Nat
  before : String
  after : String
deriving DecidableEq, Repr, Inhabited

/-- What an optimizer did. -/
structure Report where
  iterations : Nat := 0
  /-- How often each rule was applied, by name. -/
  applications : List (String × Nat) := []
  warnings : List String := []
  /-- Whether a ceiling ended a repetition. -/
  hitCeiling : Bool := false
  /-- The rules that failed and were not used again. -/
  disabledRules : List String := []
  /-- On how many loads the needed map keys were noted. -/
  mapKeyLoads : Nat := 0
  trace : List TraceEntry := []
deriving DecidableEq, Repr, Inhabited

namespace Report

/-- Counts one more under a name; the names ascend. -/
def count (name : String) : List (String × Nat) → List (String × Nat)
  | [] => [(name, 1)]
  | (n, k) :: rest =>
    if name < n then (name, 1) :: (n, k) :: rest
    else if name = n then (n, k + 1) :: rest
    else (n, k) :: count name rest

/-- How often a rule was applied. -/
def applied (r : Report) (rule : String) : Nat := (r.applications.lookup rule).getD 0

/-- How often any rule was applied. -/
def total (r : Report) : Nat := (r.applications.map Prod.snd).foldr (· + ·) 0

def warn (r : Report) (text : String) : Report := { r with warnings := r.warnings ++ [text] }

/-- Notes that a ceiling was hit. -/
def ceiling (r : Report) (text : String) : Report := { r.warn text with hitCeiling := true }

/-- Notes that a rule failed. -/
def disable (r : Report) (rule : String) (e : Error) : Report :=
  let names := if r.disabledRules.contains rule then r.disabledRules
    else Needs.insertKey rule r.disabledRules
  { r.warn s!"rule '{rule}' disabled for this pass: {e.message}" with disabledRules := names }

/-- Notes an application of a rule, and its trace entry if one is kept. -/
def record (r : Report) (rule : String) (entry : Option TraceEntry) : Report :=
  { r with applications := count rule r.applications, trace := r.trace ++ entry.toList }

/-- The members stand in a fixed order; the trace is no part of the JSON form. -/
def toJson (r : Report) : Json := .object [
  ("iterations", .int r.iterations),
  ("applications", .object (r.applications.map fun (rule, n) => (rule, .int n))),
  ("warnings", .array (r.warnings.map .string)),
  ("hit_ceiling", .bool r.hitCeiling),
  ("disabled_rules", .array (r.disabledRules.map .string)),
  ("map_key_loads", .int r.mapKeyLoads)]

end Report

/-- Rules in sets, and how to apply them. -/
structure Optimizer where
  config : Config := {}
  sets : List RuleSet := Rule.defaultSets
deriving Inhabited

namespace Optimizer

/-- What a run has come to: the plan, and what was done to get there. -/
structure Progress where
  plan : Plan
  report : Report := {}
deriving Inhabited

/-- A stretch of a run that may stop with an error. -/
abbrev Run := EStateM Error Progress

/-- Runs an edit on the plan. -/
def onPlan {β : Type} (edit : Plan.Edit β) : Run β := fun s =>
  match edit s.plan with
  | .ok b plan => .ok b { s with plan }
  | .error e plan => .error e { s with plan }

def onReport (f : Report → Report) : Run Unit := modify fun s => { s with report := f s.report }

/-- Applies a rule to the first of the matches that is still in the plan and passes the check.
Returns the changed region with its neighbours; none if no match does. -/
def transformFirst (config : Config) (rule : Rule) : List Match → Plan.Edit (Option (List NodeId))
  | [] => return none
  | m :: rest => do
    if !m.nodes.all (← get).contains then transformFirst config rule rest
    else if !(← rule.check m) then transformFirst config rule rest
    else
      let region ← rule.transform m
      if config.validate then
        match (← get).validate with
        | .ok _ => pure ()
        | .error e => throw (.brokenByRule rule.name e.message)
      return some (region.withNeighbors (← get))

/-- Looks for matches of a rule in the scope and applies it to one of them. -/
def matchAndTransform (config : Config) (rule : Rule) (scope : Option (List NodeId)) :
    Plan.Edit (Option (List NodeId)) := do
  let pattern ← Plan.ofResult rule.pattern
  let found ← Plan.ofResult (pattern.findMatches (← get) scope)
  transformFirst config rule found

/-- The error with which a run ends when a rule failed with `e`. -/
def ruleError (rule : String) (e : Error) : Error :=
  match e with
  | .brokenByRule _ _ => e
  | .inRule _ _ => e
  | _ => .inRule rule e

/-- The trace entry of an application, if traces are kept. -/
def traceEntry (config : Config) (rule : Rule) (iteration : Nat) (before after : Plan) :
    Option TraceEntry :=
  if config.trace then
    some { rule := rule.name, iteration, before := before.text, after := after.text }
  else none

/-- Applies a rule until it finds nothing more in the scope, at most `remaining` times. Returns how
often it was applied, counting on from `applied`. -/
def applyRepeatedly (config : Config) (rule : Rule) (iteration : Nat) :
    (remaining applied : Nat) → Option (List NodeId) → Run Nat
  | 0, applied, _ => do
    onReport (·.ceiling s!"rule '{rule.name}' applied {applied} times in one iteration; moving on")
    return applied
  | remaining + 1, applied, scope => do
    let before := (← get).plan
    match matchAndTransform config rule scope before with
    | .ok none plan =>
      modify ({ · with plan })
      return applied
    | .ok (some region) plan =>
      modify ({ · with plan })
      onReport (·.record rule.name (traceEntry config rule iteration before plan))
      let scope := match config.rescan with
        | .region => some region
        | .whole => none
      applyRepeatedly config rule iteration remaining (applied + 1) scope
    | .error e plan =>
      match config.failurePolicy with
      | .bestEffort =>
        onReport (·.disable rule.name e)
        return applied
      | .abort =>
        modify ({ · with plan })
        throw (ruleError rule.name e)

/-- Applies a rule, whose pattern has to be in order, as often as it finds something. -/
def applyRule (config : Config) (rule : Rule) (iteration : Nat) : Run Nat := do
  discard (onPlan (Plan.ofResult (rule.pattern >>= Pattern.root)))
  applyRepeatedly config rule iteration config.maxIterations 0 none

/-- Applies each of the rules that are in use. True if one of them changed something. -/
def applyRules (config : Config) (iteration : Nat) : List Rule → Run Bool
  | [] => return false
  | rule :: rest => do
    if config.isDisabled rule.name || (← get).report.disabledRules.contains rule.name then
      applyRules config iteration rest
    else
      let n ← applyRule config rule iteration
      let more ← applyRules config iteration rest
      return n > 0 || more

/-- The fingerprint of the plan at this point. -/
def fingerprint : Run Digest := onPlan do Plan.ofResult (← get).fingerprint

/-- Repeats a rule set until it changes nothing, at most `remaining` times. A plan that was there
before, going by the fingerprints `seen`, ends the repetition too. -/
def repeatSet (config : Config) (set : RuleSet) :
    (remaining iteration : Nat) → List Digest → Run Unit
  | 0, _, _ =>
    onReport (·.ceiling (s!"rule set '{set.name}' stopped after {config.maxIterations} " ++
      "iterations without reaching a fixpoint"))
  | remaining + 1, iteration, seen => do
    onReport fun r => { r with iterations := r.iterations + 1 }
    if ← applyRules config iteration set.rules then
      let now ← fingerprint
      if seen.contains now then
        onReport (·.warn s!"rule set '{set.name}' revisited an earlier plan; stopping")
      else repeatSet config set remaining (iteration + 1) (now :: seen)

/-- Goes through the rule sets. -/
def runSets (config : Config) : List RuleSet → Run Unit
  | [] => pure ()
  | set :: rest => do
    repeatSet config set config.maxIterations 1 [← fingerprint]
    runSets config rest

/-- A whole run. -/
def run (o : Optimizer) : Run Unit := do
  onPlan do
    Plan.ofResult o.config.check
    Plan.ofResult (← get).validate
  runSets o.config o.sets
  if o.config.pruneMapKeys then
    let loads ← onPlan Plan.pruneMapKeys
    onReport fun r => { r with mapKeyLoads := loads }

/-- Optimizes a plan. -/
def optimize (o : Optimizer) : Plan.Edit Report := fun plan =>
  match o.run { plan } with
  | .ok _ s => .ok s.report s.plan
  | .error e s => .error e s.plan

end Optimizer

end Dataflow

import Dataflow.Error

/-!
# Settings of the optimizer

The settings, their defaults, and how they are read from words and from environment variables. A
variable whose value cannot be read is ignored.
-/

namespace Dataflow

/-- Where new matches are looked for after a rule was applied. -/
inductive RescanPolicy where
  /-- In the changed region and its neighbours. -/
  | region
  /-- In the whole plan. -/
  | whole
deriving DecidableEq, Repr, Inhabited

/-- What happens when a rule fails. -/
inductive FailurePolicy where
  /-- The pass ends with the error. -/
  | abort
  /-- The plan is put back and the rule is not used again in the pass. -/
  | bestEffort
deriving DecidableEq, Repr, Inhabited

namespace RescanPolicy

def name : RescanPolicy → String
  | .region => "region"
  | .whole => "whole"

/-- The policy with exactly this name. -/
def ofName? (word : String) : Option RescanPolicy := [region, whole].find? (·.name == word)

/-- Reads a policy; blanks around it and letter case do not matter. -/
def read (text : String) : Result RescanPolicy :=
  let word := Text.lower (Text.trim text)
  match ofName? word with
  | some p => .ok p
  | none => .error (.config (.rescanPolicy word))

end RescanPolicy

namespace FailurePolicy

def name : FailurePolicy → String
  | .abort => "abort"
  | .bestEffort => "best_effort"

/-- The policy with exactly this name. -/
def ofName? (word : String) : Option FailurePolicy := [abort, bestEffort].find? (·.name == word)

/-- Reads a policy; blanks around it, letter case and the kind of dash do not matter. -/
def read (text : String) : Result FailurePolicy :=
  let word := (Text.lower (Text.trim text)).map fun c => if c = '-' then '_' else c
  match ofName? word with
  | some p => .ok p
  | none => .error (.config (.failurePolicy word))

end FailurePolicy

/-- The settings of an optimizer. -/
structure Config where
  /-- How often the rules of one set may be gone through. -/
  maxIterations : Nat := 100
  rescan : RescanPolicy := .region
  failurePolicy : FailurePolicy := .abort
  /-- Names of rules that are not used. -/
  disabledRules : List String := []
  /-- Whether every application of a rule is recorded with the plan before and after it. -/
  trace : Bool := false
  /-- Whether the plan is validated after every application of a rule. -/
  validate : Bool := true
  /-- Whether unused map keys are looked for after the rules. -/
  pruneMapKeys : Bool := true
deriving DecidableEq, Repr, Inhabited

namespace Config

/-- Whether a rule is not to be used. Letter case does not matter. -/
def isDisabled (c : Config) (rule : String) : Bool := c.disabledRules.any (Text.sameLetters · rule)

/-- Refuses settings with which no rule could run. -/
def check (c : Config) : Result Unit :=
  if c.maxIterations = 0 then .error (.config .zeroIterations) else .ok ()

/-- Rule names between commas; blanks around names and empty names do not count. -/
def readRules (text : String) : List String :=
  ((Text.splitOn ',' text.toList).map Text.trimmed).filterMap fun name =>
    if name.isEmpty then none else some (String.ofList name)

/-- Reads a switch. -/
def readFlag? (text : String) : Option Bool :=
  match Text.lower (Text.trim text) with
  | "1" | "true" | "yes" | "on" => some true
  | "0" | "false" | "no" | "off" => some false
  | _ => none

/-- The variables of an environment by name. -/
abbrev Environment := String → Option String

/-- The default settings, changed by those variables that are set and can be read. -/
def ofEnvironment (env : Environment) : Config :=
  let d : Config := {}
  { d with
    maxIterations := (env "FLOWPLAN_MAX_ITERATIONS" >>= Text.readCount?).getD d.maxIterations
    rescan := (env "FLOWPLAN_RESCAN" >>= fun s => (RescanPolicy.read s).toOption).getD d.rescan
    failurePolicy :=
      (env "FLOWPLAN_FAILURE_POLICY" >>= fun s => (FailurePolicy.read s).toOption).getD
        d.failurePolicy
    disabledRules := ((env "FLOWPLAN_DISABLED_RULES").map readRules).getD d.disabledRules
    trace := (env "FLOWPLAN_TRACE" >>= readFlag?).getD d.trace
    pruneMapKeys := (env "FLOWPLAN_PRUNE_MAP_KEYS" >>= readFlag?).getD d.pruneMapKeys }

end Config

end Dataflow

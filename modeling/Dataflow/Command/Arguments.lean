import Dataflow.Config

/-!
# Command lines

A command line is a command word and options. An option has a long name behind two hyphens, some
have a letter behind one. A value stands in the next argument, behind an equals sign, or directly
behind the letter; a value of its own may not start with a hyphen, for it would be taken for an
option.

Arguments are read from left to right, and the first that cannot be read ends the reading; so does a
request for help.
-/

namespace Dataflow

/-!
## Commands

What a call of the program asks for. Settings given with a command override those of the environment
and of the script.
-/

/-- Settings that are given with a command. -/
structure Settings where
  maxIterations : Option Nat := none
  rescan : Option RescanPolicy := none
  failurePolicy : Option FailurePolicy := none
  disabledRules : List String := []
  trace : Bool := false
  noPruneMapKeys : Bool := false
deriving DecidableEq, Repr, Inhabited

/-- Records to load: where the plan finds them, and the file that holds them. -/
structure Binding where
  location : String
  file : String
deriving DecidableEq, Repr, Inhabited

/-- What the program is to do with the script in a file. -/
inductive Command where
  | validate (script : String)
  | explain (script : String) (optimized : Bool) (settings : Settings)
  | optimize (script : String) (json : Bool) (settings : Settings)
  /-- Outputs are printed unless a directory for them is given. -/
  | run (script : String) (inputs : List Binding) (asWritten : Bool) (directory : Option String)
      (settings : Settings)
deriving DecidableEq, Repr, Inhabited

/-- Turns a rule off; a rule that is off already is not listed again. -/
def Config.disable (c : Config) (rule : String) : Config :=
  if c.isDisabled rule then c else { c with disabledRules := c.disabledRules ++ [rule] }

/-- The settings of an optimizer, overridden. -/
def Settings.apply (s : Settings) (c : Config) : Config :=
  { s.disabledRules.foldl Config.disable c with
    maxIterations := s.maxIterations.getD c.maxIterations
    rescan := s.rescan.getD c.rescan
    failurePolicy := s.failurePolicy.getD c.failurePolicy
    trace := s.trace || c.trace
    pruneMapKeys := !s.noPruneMapKeys && c.pruneMapKeys }

/-- The file in an output directory that takes what a store writes: every character but letters,
digits, points and hyphens becomes an underscore, and none of those starts the name. -/
def Command.outputName (location : String) : String :=
  let safe (c : Char) : Char := if c.isAlphanum || c == '.' || c == '-' then c else '_'
  String.ofList ((location.toList.map safe).dropWhile (· == '_')) ++ ".jsonl"

/-! ## Switches -/

namespace Command

/-- Why no command was read. -/
inductive Stop where
  /-- Help is asked for: about a command word, or about the program. -/
  | help (word : Option String)
  | version
  /-- The arguments are not a command line of the program. -/
  | usage
deriving DecidableEq, Repr, Inhabited

/-- An option that a command has. -/
structure Switch where
  name : String
  letter : Option Char := none
  /-- What help says about it. -/
  about : String := ""
  /-- What help calls its value. -/
  valueName : String := ""
  /-- Which values it takes; none if it takes no value. -/
  accepts : Option (String → Bool) := none
  repeatable : Bool := false

/-- An option that was given; the value is empty if it takes none. -/
structure Given where
  name : String
  value : String := ""
deriving DecidableEq, Repr, Inhabited

/-! ## The options -/

def isPath (value : String) : Bool := !value.isEmpty

/-- Reads a location and a file on both sides of the first equals sign. -/
def readBinding? (value : String) : Option Binding :=
  match Text.splitOnce ['='] value.toList with
  | some (location, file) =>
    if location.isEmpty || file.isEmpty then none
    else some ⟨String.ofList location, String.ofList file⟩
  | none => none

def scriptSwitch : Switch :=
  { name := "script", letter := some 's', valueName := "SCRIPT", accepts := some isPath }

def settingSwitches : List Switch := [
  { name := "max-iterations", valueName := "MAX_ITERATIONS",
    about := "Iteration ceiling per rule set",
    accepts := some fun v => (Text.readCount? v).isSome },
  { name := "rescan", valueName := "RESCAN",
    about := "Where to look for matches after a rewrite: region or whole",
    accepts := some fun v => (RescanPolicy.read v).isOk },
  { name := "failure-policy", valueName := "FAILURE_POLICY",
    about := "What to do when a rule fails: abort or best_effort",
    accepts := some fun v => (FailurePolicy.read v).isOk },
  { name := "disable-rule", valueName := "DISABLE_RULES",
    about := "Disable a rule by name (repeatable)", accepts := some fun _ => true,
    repeatable := true },
  { name := "trace", about := "Record before/after listings of every rule application" },
  { name := "no-prune-map-keys", about := "Do not annotate loads with the map keys they need" }]

def runSwitches : List Switch := [
  { name := "input", letter := some 'i', valueName := "INPUTS",
    about := "Input data as LOCATION=FILE, one JSON array per line (repeatable)",
    accepts := some fun v => (readBinding? v).isSome, repeatable := true },
  { name := "no-optimize", about := "Execute the plan as written" },
  { name := "output-dir", valueName := "OUTPUT_DIR",
    about := "Write each store's output to DIR instead of stdout", accepts := some isPath }]

def optimizedSwitch : Switch :=
  { name := "optimized", about := "Explain the plan after optimization" }

def jsonSwitch : Switch :=
  { name := "json", about := "Print the report as JSON instead of the optimized plan" }

/-- The options of a command; none if there is no such command. -/
def switches? : String → Option (List Switch)
  | "validate" => some [scriptSwitch]
  | "explain" => some (scriptSwitch :: optimizedSwitch :: settingSwitches)
  | "optimize" => some (scriptSwitch :: jsonSwitch :: settingSwitches)
  | "run" => some (scriptSwitch :: runSwitches ++ settingSwitches)
  | _ => none

/-! ## Reading -/

/-- Whether an argument of its own can be the value of the option before it. -/
def isValue (arg : String) : Bool := arg == "-" || !arg.startsWith "-"

/-- Notes an option, unless it was given before and may be given only once. -/
def note (s : Switch) (value : String) (given : List Given) : Except Stop (List Given) :=
  if !s.repeatable && given.any (·.name == s.name) then .error .usage
  else .ok (given ++ [⟨s.name, value⟩])

/-- Notes an option with a value that it accepts. -/
def noteValue (s : Switch) (accepts : String → Bool) (value : String) (given : List Given) :
    Except Stop (List Given) :=
  if accepts value then note s value given else .error .usage

/-- What an argument behind a command word asks for: an option of the list, with the value attached
to it. -/
def switchOf (word : String) (known : List Switch) (arg : String) :
    Except Stop (Switch × Option String) :=
  match arg.toList with
  | '-' :: '-' :: long =>
    let (name, value) := match Text.splitOnce ['='] long with
      | some (name, value) => (String.ofList name, some (String.ofList value))
      | none => (String.ofList long, none)
    match known.find? (·.name == name) with
    | some s => .ok (s, value)
    | none => .error (if name = "help" && value.isNone then .help (some word) else .usage)
  | '-' :: letter :: rest =>
    match known.find? (·.letter == some letter) with
    | some s =>
      .ok (s, match rest with
        | [] => none
        | '=' :: value => some (String.ofList value)
        | value => some (String.ofList value))
    | none => .error (if letter = 'h' then .help (some word) else .usage)
  | _ => .error .usage

/-- Reads the options behind a command word. Two hyphens alone may end them. -/
def readOptions (word : String) (known : List Switch) :
    List String → List Given → Except Stop (List Given)
  | [], given => .ok given
  | arg :: rest, given => do
    if arg = "--" && rest.isEmpty then return given
    let (s, attached) ← switchOf word known arg
    match s.accepts, attached with
    | none, none => readOptions word known rest (← note s "" given)
    | none, some _ => throw .usage
    | some accepts, some value => readOptions word known rest (← noteValue s accepts value given)
    | some accepts, none =>
      match rest with
      | value :: rest =>
        if isValue value then readOptions word known rest (← noteValue s accepts value given)
        else throw .usage
      | [] => throw .usage

/-- The value of an option that was given. -/
def valueOf? (given : List Given) (name : String) : Option String :=
  (given.find? (·.name == name)).map Given.value

/-- The values of an option that was given any number of times. -/
def valuesOf (given : List Given) (name : String) : List String :=
  (given.filter (·.name == name)).map Given.value

/-- Whether an option was given. -/
def isGiven (given : List Given) (name : String) : Bool := (valueOf? given name).isSome

def settingsOf (given : List Given) : Settings where
  maxIterations := valueOf? given "max-iterations" >>= Text.readCount?
  rescan := valueOf? given "rescan" >>= fun v => (RescanPolicy.read v).toOption
  failurePolicy := valueOf? given "failure-policy" >>= fun v => (FailurePolicy.read v).toOption
  disabledRules := valuesOf given "disable-rule"
  trace := isGiven given "trace"
  noPruneMapKeys := isGiven given "no-prune-map-keys"

/-- The command that a command word and options make; none if a script is missing. -/
def ofGiven? (word : String) (given : List Given) : Option Command := do
  let script ← valueOf? given "script"
  let settings := settingsOf given
  match word with
  | "validate" => return .validate script
  | "explain" => return .explain script (isGiven given "optimized") settings
  | "optimize" => return .optimize script (isGiven given "json") settings
  | "run" =>
    let inputs := (valuesOf given "input").filterMap readBinding?
    return .run script inputs (isGiven given "no-optimize") (valueOf? given "output-dir") settings
  | _ => none

/-- Why there is no command in an option that stands in place of a command word. -/
def stopAt (arg : String) : Stop :=
  match arg.toList with
  | '-' :: '-' :: _ =>
    if arg = "--help" then .help none else if arg = "--version" then .version else .usage
  | '-' :: 'h' :: _ => .help none
  | '-' :: 'V' :: _ => .version
  | _ => .usage

/-- Reads a command line. -/
def ofArguments : List String → Except Stop Command
  | ["help"] => .error (.help none)
  | ["help", word] =>
    .error (if word = "help" || (switches? word).isSome then .help (some word) else .usage)
  | word :: args =>
    match switches? word with
    | none => .error (stopAt word)
    | some known =>
      match readOptions word known args [] with
      | .error stop => .error stop
      | .ok given =>
        match ofGiven? word given with
        | some command => .ok command
        | none => .error .usage
  | [] => .error .usage

end Command

end Dataflow

import Dataflow.Command.Files
import Dataflow.Command.Help
import Dataflow.Config
import Dataflow.Engine.Run
import Dataflow.Plan.Text
import Dataflow.Rewrite.Optimizer
import Dataflow.Script.Basic

/-!
# Carrying out commands

A command opens a script and then validates, lists, optimizes or runs its plan. Results go to the
output; traces, warnings and what became of each job go to the error output.
-/

/-!
## What a command needs around it

A command reads files and variables, prints, and writes files. `Host` lists these needs, so that a
command can be carried out by the operating system or, with the same meaning, on a `Desk`: files and
printed text held as data.
-/

namespace Dataflow

/-- The means to carry out a command. -/
class Host (m : Type → Type) where
  environment : m Config.Environment
  /-- The directory from which relative locations start. -/
  directory : m String
  readFile : String → m (Except FileFault String)
  /-- Writes a file in a directory, which is made with all directories above it if need be. -/
  writeFile : (directory name text : String) → m (Except FileFault Unit)
  print : String → m Unit
  printError : String → m Unit

/-- Files, variables and printed text. -/
structure Desk where
  tree : FileTree := {}
  environment : Config.Environment := fun _ => none
  directory : Segments := []
  printed : String := ""
  errors : String := ""
deriving Inhabited

namespace Desk

/-- The directory of a new desk. -/
def home : Segments := ["tmp", "desk"]

/-- A file that is always empty and belongs to every desk. -/
def nullFile : Segments × String := (["dev", "null"], "")

/-- A desk with the given files in its directory. -/
def holding (files : List (String × String)) (environment : Config.Environment) : Desk where
  tree := {
    files := nullFile :: files.map fun (name, text) => (home ++ FileTree.namesOf name, text)
    directories := [home] }
  environment
  directory := home

/-- The files in the directory of the desk, with their paths from there. -/
def files (d : Desk) : List (String × String) :=
  (d.tree.files.filter fun (place, _) => d.directory.isPrefixOf place).map fun (place, text) =>
    (String.intercalate "/" (place.drop d.directory.length), text)

instance : Host (StateM Desk) where
  environment := do return (← get).environment
  directory := do return "/" ++ String.intercalate "/" (← get).directory
  readFile path := do
    let d ← get
    return d.tree.read d.directory path
  writeFile parent name text := do
    let d ← get
    match d.tree.write d.directory parent name text with
    | .ok tree =>
      set { d with tree }
      return .ok ()
    | .error fault => return .error fault
  print text := modify fun d => { d with printed := d.printed ++ text }
  printError text := modify fun d => { d with errors := d.errors ++ text }

end Desk

/-! ## Commands carried out -/

/-- Why a command failed. -/
inductive CommandError where
  | file (fault : FileFault)
  | plan (e : Error)
  | run (e : RunError)
  | incomplete (jobs total : Nat)
deriving DecidableEq, Repr, Inhabited

namespace CommandError

def message : CommandError → String
  | .file fault => fault.message
  | .plan e => e.message
  | .run e => e.message
  | .incomplete jobs total => s!"{jobs} of {total} jobs did not complete"

/-- Advice on how to mend the error. -/
def hints : CommandError → List String
  | .plan e => e.suggestions
  | _ => []

/-- Mistakes in a script end the program with another code than failures of work on it. -/
def exitCode : CommandError → Nat
  | .plan e => if e.isFrontend then 2 else 1
  | _ => 1

/-- What is printed about the error. -/
def text (e : CommandError) : String :=
  s!"Error: {e.message}\n" ++ String.join (e.hints.map fun hint => s!"  hint: {hint}\n")

end CommandError

/-- What is printed about an application of a rule. -/
def TraceEntry.text (t : TraceEntry) : String :=
  s!"-- {t.rule} (iteration {t.iteration})\n{t.before}=>\n{t.after}\n"

/-- What is printed about an optimization beside the plan. -/
def Report.text (r : Report) : String :=
  s!"\nIterations: {r.iterations}\n" ++
    String.join (r.applications.map fun (rule, n) => s!"  {rule}: {n}\n") ++
    (if r.hitCeiling then "Iteration ceiling reached\n" else "") ++
    if r.mapKeyLoads > 0 then s!"Loads annotated with map keys: {r.mapKeyLoads}\n" else ""

def JobStatus.title : JobStatus → String
  | .completed => "Completed"
  | .failed => "Failed"
  | .pending => "Pending"

/-- What is printed about a job. -/
def Job.text (job : Job) : String :=
  match job.error with
  | some why => s!"{job.status.title} {job.location}: {why}\n"
  | none => s!"{job.status.title} {job.location} ({job.records.length} records)\n"

namespace Command

variable {m : Type → Type} [Monad m] [Host m]

/-- A part of a command, which may fail. -/
abbrev Act (m : Type → Type) := ExceptT CommandError m

def tell (text : String) : Act m Unit := ExceptT.lift (Host.print text)

def tellError (text : String) : Act m Unit := ExceptT.lift (Host.printError text)

def ofResult {β : Type} (r : Result β) : Act m β := ExceptT.mk (pure (r.mapError .plan))

def ofRunResult {β : Type} (r : RunResult β) : Act m β := ExceptT.mk (pure (r.mapError .run))

/-- The text of a file. -/
def read (path : String) : Act m String := do
  match ← ExceptT.lift (Host.readFile path : m _) with
  | .ok text => return text
  | .error fault => throw (.file fault)

/-- Opens the script in a file; an error in it is reported with the path of the file. -/
def openScript (path : String) : Act m (Session × Config) := do
  let text ← read path
  let environment ← ExceptT.lift (Host.environment : m _)
  let directory ← ExceptT.lift (Host.directory : m _)
  ofResult ((Script.open? environment text { directory }).mapError (.inContext path ·))

/-- Runs an edit on the plan of a session. -/
def editPlan {β : Type} (edit : Plan.Edit β) (s : Session) : Act m (β × Session) :=
  match Session.onPlan edit s with
  | .ok b s => return (b, s)
  | .error e _ => throw (.plan e)

/-- Optimizes the plan of a script and tells about traces and warnings. -/
def optimized (script : Session × Config) (settings : Settings) : Act m (Report × Session) := do
  let o : Optimizer := { config := settings.apply script.2 }
  let (report, s) ← editPlan o.optimize script.1
  report.trace.forM fun t => tellError t.text
  report.warnings.forM fun w => tellError s!"warning: {w}\n"
  return (report, s.refresh.2)

/-- Tells the listing of the plan. -/
def tellPlan (s : Session) : Act m Unit := do
  let (text, _) ← editPlan Plan.explain s
  tell text

/-- Fills a storage with the records that files hold. -/
def loadInputs (directory : String) : List Binding → Storage → Act m Storage
  | [], s => return s
  | b :: rest, s => do
    let location ← ofResult (Location.resolveInMemory b.location directory)
    let records ← ofRunResult (Records.ofLines (← read b.file))
    loadInputs directory rest (s.insert location records)

/-- Tells about a job, and writes or tells its records if it completed. -/
def tellJob (output : Option String) (job : Job) : Act m Unit := do
  tellError job.text
  if job.isCompleted then
    let lines := Records.toLines job.records
    match output with
    | none => tell s!"# {job.location}\n{lines}"
    | some directory =>
      match ← ExceptT.lift (Host.writeFile directory (outputName job.location) lines : m _) with
      | .ok () => return ()
      | .error fault => throw (.file fault)

/-- Runs the plan of a session on the records that files hold. -/
def runPlan (s : Session) (inputs : List Binding) (output : Option String) : Act m Unit := do
  let directory ← ExceptT.lift (Host.directory : m _)
  let storage ← loadInputs directory inputs {}
  let prepared ← ofRunResult (Prepared.ofPlan s.plan)
  let (jobs, _) := Engine.execute prepared storage
  jobs.forM (tellJob output)
  let open_ := jobs.filter (!·.isCompleted)
  unless open_.isEmpty do throw (.incomplete open_.length jobs.length)

/-- Carries out a command. -/
def act : Command → Act m Unit
  | .validate path => do
    let (s, _) ← openScript path
    ofResult s.plan.validate
    tell s!"✓ Script is valid ({s.plan.size} operators, {s.stores.length} stores)\n"
  | .explain path afterwards settings => do
    let script ← openScript path
    if afterwards then
      let (_, s) ← optimized script settings
      tellPlan s
    else tellPlan script.1
  | .optimize path json settings => do
    let (report, s) ← optimized (← openScript path) settings
    if json then tell (report.toJson.prettyText "" ++ "\n")
    else
      tellPlan s
      tell report.text
  | .run path inputs asWritten output settings => do
    let script ← openScript path
    if asWritten then runPlan script.1 inputs output
    else
      let (_, s) ← optimized script settings
      runPlan s inputs output

/-- Carries out a command and tells about its error. Returns the code that the program ends with. -/
def perform (c : Command) : m Nat := do
  match ← (act c : Act m Unit).run with
  | .ok () => return 0
  | .error e =>
    Host.printError e.text
    return e.exitCode

/-- Answers arguments that are no command. Returns the code that the program ends with. -/
def answer : Stop → m Nat
  | .help word => do
    Host.print (helpText word)
    return 0
  | .version => do
    Host.print versionText
    return 0
  | .usage => do
    Host.printError programHelp
    return 2

/-- Carries out a command line. -/
def performArguments (args : List String) : m Nat :=
  match ofArguments args with
  | .ok c => perform c
  | .error stop => answer stop

end Command

end Dataflow

import Dataflow.Command.Perform
import Dataflow.Proofs.Pass

/-!
# Parts of commands on a desk

What a part of a command comes to on a desk (`Command.onDesk`), and the two halves of the run
command: the plan is made ready and the storage is filled, then the jobs are run and told about
(`Command.act_run`).
-/

namespace Dataflow

/-- The path of the directory in which the desk stands. -/
def Desk.here (d : Desk) : String := "/" ++ String.intercalate "/" d.directory

namespace Command

variable {β γ : Type} {x : Act (StateM Desk) β} {f : β → Act (StateM Desk) γ} {d d' d'' : Desk}
  {b : β} {c : γ} {e : CommandError}

/-- What a part of a command comes to on a desk. -/
def onDesk (x : Act (StateM Desk) β) (d : Desk) : Except CommandError β × Desk := x.run.run d

@[simp] theorem onDesk_pure : onDesk (pure b) d = (.ok b, d) := rfl

@[simp] theorem onDesk_throw : onDesk (throw e : Act (StateM Desk) β) d = (.error e, d) := rfl

theorem onDesk_bind : onDesk (x >>= f) d = match onDesk x d with
    | (.ok b, d') => onDesk (f b) d'
    | (.error e, d') => (.error e, d') := by
  unfold onDesk
  rw [ExceptT.run_bind, StateT.run_bind]
  rcases x.run.run d with ⟨e | b, d'⟩ <;> rfl

theorem onDesk_bind_of_ok (h : onDesk x d = (.ok b, d')) :
    onDesk (x >>= f) d = onDesk (f b) d' := by
  rw [onDesk_bind, h]

theorem onDesk_bind_eq_ok : onDesk (x >>= f) d = (.ok c, d'') ↔
    ∃ b d', onDesk x d = (.ok b, d') ∧ onDesk (f b) d' = (.ok c, d'') := by
  rw [onDesk_bind]
  rcases onDesk x d with ⟨e | b, d'⟩
  · simp
  · simp [and_assoc]

@[simp] theorem onDesk_ofResult {r : Result β} :
    onDesk (ofResult r) d = (r.mapError .plan, d) := rfl

@[simp] theorem onDesk_ofRunResult {r : RunResult β} :
    onDesk (ofRunResult r) d = (r.mapError .run, d) := rfl

@[simp] theorem onDesk_tellError {text : String} :
    onDesk (tellError text) d = (.ok (), { d with errors := d.errors ++ text }) := rfl

theorem onDesk_directory : onDesk (ExceptT.lift (Host.directory : StateM Desk _)) d =
    (.ok d.here, d) := rfl

theorem onDesk_environment : onDesk (ExceptT.lift (Host.environment : StateM Desk _)) d =
    (.ok d.environment, d) := rfl

@[simp] theorem onDesk_read {path : String} :
    onDesk (read path) d = ((d.tree.read d.directory path).mapError .file, d) := by
  unfold read
  have hread : onDesk (ExceptT.lift (Host.readFile path : StateM Desk _)) d =
      (.ok (d.tree.read d.directory path), d) := rfl
  rw [onDesk_bind_of_ok hread]
  cases d.tree.read d.directory path <;> rfl

theorem onDesk_writeFile {parent name text : String} :
    onDesk (ExceptT.lift (Host.writeFile parent name text : StateM Desk _)) d =
      match d.tree.write d.directory parent name text with
      | .ok tree => (.ok (.ok ()), { d with tree })
      | .error fault => (.ok (.error fault), d) := by
  have hrun : onDesk (ExceptT.lift (Host.writeFile parent name text : StateM Desk _)) d =
      let written := StateT.run (match d.tree.write d.directory parent name text with
        | .ok tree => do
          set { d with tree }
          return .ok ()
        | .error fault => return .error fault : StateM Desk (Except FileFault Unit)) d
      (.ok written.1, written.2) := rfl
  rw [hrun]
  cases d.tree.write d.directory parent name text <;> rfl

theorem mapError_eq_ok {ε ε' : Type} {r : Except ε β} {g : ε → ε'} :
    r.mapError g = .ok b ↔ r = .ok b := by
  cases r with
  | error e => exact iff_of_false nofun nofun
  | ok a =>
    show Except.ok a = Except.ok b ↔ _
    rw [Except.ok.injEq, Except.ok.injEq]

/-! ## What stays as it is -/

/-- The desks have the same files and variables, and one stands in the same directory. -/
structure SameFiles (d d' : Desk) : Prop where
  tree : d'.tree = d.tree
  environment : d'.environment = d.environment
  directory : d'.directory = d.directory

namespace SameFiles

theorem refl : SameFiles d d := ⟨rfl, rfl, rfl⟩

theorem trans (h : SameFiles d d') (h' : SameFiles d' d'') : SameFiles d d'' :=
  ⟨h'.tree.trans h.tree, h'.environment.trans h.environment, h'.directory.trans h.directory⟩

theorem here (h : SameFiles d d') : d'.here = d.here := by
  unfold Desk.here
  rw [h.directory]

end SameFiles

theorem sameFiles_tellAll {α : Type} {text : α → String} : ∀ {l : List α} {d d' : Desk}
    {r : Except CommandError PUnit},
    onDesk (l.forM fun a => tellError (text a)) d = (r, d') → SameFiles d d'
  | [], d, d', r, h => by
    obtain ⟨-, rfl⟩ := Prod.mk.inj h
    exact .refl
  | a :: l, d, d', r, h => by
    change onDesk (tellError (text a) >>= fun _ => l.forM fun a => tellError (text a)) d = _ at h
    rw [onDesk_bind_of_ok onDesk_tellError] at h
    have hfirst : SameFiles d { d with errors := d.errors ++ text a } := ⟨rfl, rfl, rfl⟩
    exact hfirst.trans (sameFiles_tellAll h)

/-! ## The run command -/

section Halves

variable {m : Type → Type} [Monad m] [Host m]

/-- The session with the plan that the run command runs. -/
def chosen (asWritten : Bool) (settings : Settings) (script : Session × Config) : Act m Session :=
  if asWritten then pure script.1 else Prod.snd <$> optimized script settings

/-- The first half of the run command: the plan of the script, optimized unless it is to be run as
written, and the storage with the records of the bindings. -/
def ready (path : String) (inputs : List Binding) (asWritten : Bool) (settings : Settings) :
    Act m (Session × Storage) := do
  let script ← openScript path
  let s ← chosen asWritten settings script
  let directory ← ExceptT.lift (Host.directory : m _)
  return (s, ← loadInputs directory inputs {})

/-- The second half of the run command: the jobs of the plan. -/
def finish (output : Option String) (s : Session) (storage : Storage) : Act m Unit := do
  let prepared ← ofRunResult (Prepared.ofPlan s.plan)
  let (jobs, _) := Engine.execute prepared storage
  jobs.forM (tellJob output)
  let open_ := jobs.filter (!·.isCompleted)
  unless open_.isEmpty do throw (.incomplete open_.length jobs.length)

theorem act_run [LawfulMonad m] {path : String} {inputs : List Binding} {asWritten : Bool}
    {output : Option String} {settings : Settings} :
    (act (.run path inputs asWritten output settings) : Act m Unit) =
      ready path inputs asWritten settings >>= fun r => finish output r.1 r.2 := by
  unfold act ready
  cases asWritten <;> simp [chosen, runPlan, finish]

end Halves

variable {path : String} {inputs : List Binding} {asWritten : Bool} {output : Option String}
  {settings : Settings} {s : Session} {storage : Storage}

/-- Got ready, the run command only runs the jobs. -/
theorem onDesk_act_run
    (h : onDesk (ready path inputs asWritten settings) d = (.ok (s, storage), d')) :
    onDesk (act (.run path inputs asWritten output settings)) d =
      onDesk (finish output s storage) d' := by
  rw [act_run, onDesk_bind_of_ok h]

theorem onDesk_runPlan_of_loaded (h : onDesk (loadInputs d.here inputs {}) d = (.ok storage, d)) :
    onDesk (runPlan s inputs output) d = onDesk (finish output s storage) d := by
  unfold runPlan
  rw [onDesk_bind_of_ok onDesk_directory, onDesk_bind_of_ok h]
  rfl

end Command

end Dataflow

import Dataflow.Proofs.Rewrite.Places
import Dataflow.Proofs.Script.Histories
import Dataflow.Proofs.Script.Lasting
import Dataflow.Script.Basic

/-!
# Where scripts read from

Each load of the plan of a script reads at what the path in one of the load statements resolves to
(`Script.open_readsFrom`).
-/

namespace Dataflow

variable {places : String → Prop}

namespace Draft

open Plan (ReadsFrom)

variable {β : Type}

theorem keeps_onPlan {edit : Plan.Edit β} (h : Pass.Keeps (ReadsFrom places) edit) :
    Pass.Keeps (fun d => d.plan.ReadsFrom places) (onPlan edit) := by
  intro d hd
  rw [after_onPlan]
  exact h d.plan hd

theorem keeps_ofResult {r : Result β} :
    Pass.Keeps (fun d => d.plan.ReadsFrom places) (ofResult r) := by
  cases r with
  | ok b => exact .pure
  | error e => exact .throw

theorem keeps_input {name user : String} :
    Pass.Keeps (fun d => d.plan.ReadsFrom places) (input name user) :=
  .bind .get fun _ => keeps_ofResult

theorem keeps_compile {e : Expr} {inputs : List NodeId} {user : String} :
    Pass.Keeps (fun d => d.plan.ReadsFrom places) (compile e inputs user) :=
  keeps_onPlan (.bind (.mapM (fun _ => ReadsFrom.keptByDeriving.schema) _) fun _ =>
    Plan.keeps_ofResult)

theorem keeps_checked (id : NodeId) :
    Pass.Keeps (fun d => d.plan.ReadsFrom places) (checked id) :=
  .bind (.discard (keeps_onPlan ReadsFrom.keptByDeriving.schema)) fun _ => .pure

theorem keeps_append {name : String} {inputs : List NodeId} {o : Operation}
    (h : o.ReadsFrom places) :
    Pass.Keeps (fun d => d.plan.ReadsFrom places) (append name inputs o) :=
  .bind (keeps_onPlan (ReadsFrom.keeps_append h inputs)) fun _ =>
    .bind (.modify fun _ hd => hd) fun _ => .pure

end Draft

/-- A load statement reads from one of the places. -/
def Statement.ReadsFrom (places : String → Prop) : Statement → Prop
  | .load _ path _ => places path
  | _ => True

open Draft in
/-- Only load statements add loads. -/
theorem Statement.keeps_apply {st : Statement} (h : st.ReadsFrom places) :
    Pass.Keeps (fun d => d.plan.ReadsFrom places) st.apply := by
  cases st with
  | load name path columns =>
    exact .bind keeps_ofResult fun _ => .bind (keeps_append h) fun _ => .pure
  | filter name input predicate =>
    exact .bind keeps_ofResult fun _ => .bind (.bind keeps_input fun _ =>
      .bind keeps_compile fun _ => keeps_append trivial) fun _ => .pure
  | forEach name input items =>
    refine .bind keeps_ofResult fun _ => .bind (.bind keeps_input fun _ => .bind (.mapM (fun _ =>
      .bind keeps_compile fun _ => .pure) _) fun _ => ?_) fun _ => .pure
    exact .bind (keeps_append trivial) keeps_checked
  | join name inputs type =>
    refine .bind keeps_ofResult fun _ => .bind (.bind (.mapM (fun _ => keeps_input) _) fun _ =>
      .bind (.mapM (fun _ => .mapM (fun _ => keeps_compile) _) _) fun keys => ?_) fun _ => .pure
    dsimp only
    split
    · exact .bind (keeps_append trivial) keeps_checked
    · exact .bind .throw fun _ => .bind (keeps_append trivial) keeps_checked
  | cross name inputs =>
    exact .bind (.bind (.mapM (fun _ => keeps_input) _) fun _ =>
      .bind (keeps_append trivial) keeps_checked) fun _ => .pure
  | union name inputs =>
    exact .bind (.bind (.mapM (fun _ => keeps_input) _) fun _ => keeps_append trivial)
      fun _ => .pure
  | distinct name input =>
    exact .bind (.bind keeps_input fun _ => keeps_append trivial) fun _ => .pure
  | split input branches =>
    refine .bind keeps_ofResult fun _ => .bind keeps_input fun _ =>
      .bind (keeps_onPlan (Plan.ReadsFrom.keeps_append (by exact trivial) _)) fun _ =>
        .mapM (fun _ => ?_) _
    exact .bind keeps_compile fun _ => keeps_append trivial
  | sort name input keys =>
    exact .bind keeps_ofResult fun _ => .bind (.bind keeps_input fun _ => .bind (.mapM (fun _ =>
      .bind keeps_compile fun _ => .pure) _) fun _ => keeps_append trivial) fun _ => .pure
  | limit name input count =>
    exact .bind (.bind keeps_input fun _ => keeps_append trivial) fun _ => .pure
  | store input path =>
    exact .bind (.bind keeps_input fun _ =>
      keeps_onPlan (Plan.ReadsFrom.keeps_append (by exact trivial) _)) fun _ => .pure

namespace Session

open Plan (ReadsFrom)

variable {s s' : Session} {st : Statement} {l : List Statement} {ids : List NodeId}

theorem register_readsFrom (hst : ∀ st', s.canonical st = .ok st' → st'.ReadsFrom places)
    (h : s.plan.ReadsFrom places) (hrun : register st s = .ok ids s') :
    s'.plan.ReadsFrom places := by
  obtain ⟨-, st', hcanonical, happly⟩ := register_eq_ok hrun
  exact (Statement.keeps_apply (hst st' hcanonical)).of_ok h happly

theorem registerAll_readsFrom : ∀ {l : List Statement} {s s' : Session},
    (∀ st ∈ l, ∀ st', s.canonical st = .ok st' → st'.ReadsFrom places) →
      s.plan.ReadsFrom places → registerAll l s = .ok () s' → s'.plan.ReadsFrom places
  | [], s, s', _, h, hrun => by
    obtain rfl : s = s' := by simpa [registerAll] using hrun
    exact h
  | st :: l, s, s', hall, h, hrun => by
    obtain ⟨hst, hl⟩ := List.forall_mem_cons.mp hall
    obtain ⟨ids, t, hrun₁, hrun⟩ := registerAll_cons hrun
    -- the session brings locations into the same form as before
    have hsame := (register_eq_ok hrun₁).1.canonical
    refine registerAll_readsFrom (fun st' hst' => ?_) (register_readsFrom hst h hrun₁) hrun
    rw [hsame]
    exact hl st' hst'

theorem keeps_awaitStore (load store : NodeId × String) :
    Pass.Keeps (ReadsFrom places) (awaitStore load store) := by
  unfold awaitStore
  refine .bind .get fun p => ?_
  split
  · exact .pure
  · exact .bind ReadsFrom.keeps_connect fun _ => .pure

theorem compileBatch_readsFrom {count : Nat} (h : s.plan.ReadsFrom places)
    (hrun : compileBatch s = .ok count s') : s'.plan.ReadsFrom places := by
  have hplan := plan_compileBatch (s := s)
  rw [Pass.after, hrun] at hplan
  dsimp only at hplan
  rw [hplan]
  exact Pass.Keeps.mapM (fun load => .mapM (fun store => keeps_awaitStore load store) _) _ s.plan h

variable {β : Type} {edit : Plan.Edit β} {b : β}

theorem plan_onPlan (h : onPlan edit s = .ok b s') : edit s.plan = .ok b s'.plan := by
  cases hedit : edit s.plan with
  | ok b' q =>
    rw [onPlan_of_ok hedit] at h
    obtain ⟨rfl, rfl⟩ : b' = b ∧ _ = s' := by simpa using h
    rfl
  | error e q =>
    have hedit : edit s.draft.plan = .error e q := hedit
    simp [onPlan, onDraft, Draft.onPlan, hedit] at h

end Session

namespace Script

/-- A load statement of the script names the location by a path. -/
def LoadsAt (script : Script) (directory location : String) : Prop :=
  ∃ name path columns, .load name path columns ∈ script.statements ∧
    Location.resolve path directory = .ok location

/-- The plan of a script that was read from a text loads from where the load statements say. -/
theorem open_readsFrom {environment : Config.Environment} {text directory : String} {s : Session}
    {config : Config} (h : Script.open? environment text { directory } = .ok (s, config)) :
    ∃ script, ofText text = .ok script ∧ s.plan.ReadsFrom (script.LoadsAt directory) := by
  unfold open? at h
  cases htext : ofText text with
  | error fault => simp [htext] at h
  | ok script =>
    rw [htext] at h
    obtain ⟨config', -, h⟩ := Pass.except_bind_eq_ok.mp h
    refine ⟨script, rfl, ?_⟩
    cases hrun : script.run { directory } with
    | error e t => simp [hrun] at h
    | ok u t =>
      obtain ⟨rfl, -⟩ : t = s ∧ config' = config := by simpa [hrun] using h
      obtain ⟨_, t', hregister, hcompile⟩ := Pass.bind_eq_ok.mp hrun
      obtain ⟨count, hcompile⟩ := Pass.discard_eq_ok.mp hcompile
      refine Session.compileBatch_readsFrom ?_ hcompile
      refine Session.registerAll_readsFrom (l := script.statements) (fun st hst st' hst' => ?_)
        (Plan.readsFrom_empty {}) hregister
      -- only a load statement has to be looked at
      cases st with
      | load name path columns =>
        obtain ⟨location, hlocation, hst'⟩ := Pass.except_bind_eq_ok.mp hst'
        obtain rfl := Except.ok.inj hst'
        exact ⟨name, path, columns, hst, hlocation⟩
      | store input path =>
        obtain ⟨location, -, hst'⟩ := Pass.except_bind_eq_ok.mp hst'
        obtain rfl := Except.ok.inj hst'
        trivial
      | _ =>
        obtain rfl := Except.ok.inj hst'
        trivial

end Script

end Dataflow

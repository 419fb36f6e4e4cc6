import Dataflow.Proofs.Lists
import Dataflow.Proofs.Script.Sessions

/-!
# Rejected statements

A statement that is rejected takes nothing away (`register_rejected`): operators, edges and names
stay as they were, but for what the statement had added. Statements look everything up before they
add anything, and so leave the session as it was when an input is unknown. What can be wrong later
is that the same input is taken twice, that the columns of the new operator cannot be told apart,
and that the condition of a branch is wrong at the split that was added for it (`FailsLate`).
-/

namespace Dataflow

variable {β γ : Type} {d d' t : Draft} {n : Nat} {e : Error} {ids : List NodeId}
  {name user : String}
  {key : NodeId} {st : Statement}

/-- What is wrong with the columns of an operator when its schema cannot be derived. -/
def Error.IsAboutColumns (e : Error) : Prop :=
  (∃ column user, e = .duplicateColumn column user) ∨
    ∃ user column width, e = .schema (.columnRange user column width)

/-- What is wrong with an input that is taken twice. -/
def Error.IsAboutRepetition (e : Error) : Prop := ∃ a b, e = .graph (.alreadyConnected a b)

namespace Statement

/-- The names of the inputs of a statement. -/
def inputs : Statement → List String
  | .load _ _ _ => []
  | .filter _ input _ | .forEach _ input _ | .distinct _ input | .split input _ | .sort _ input _
  | .limit _ input _ | .store input _ => [input]
  | .join _ inputs _ => inputs.map JoinSpec.input
  | .cross _ inputs | .union _ inputs => inputs

open Draft (GrowsBy) in
/-- What can be wrong when a draft has operators that the statement added. -/
inductive LateFault (d : Draft) (e : Error) : Statement → Prop
  /-- The condition of a branch is wrong at the new split, with which some branches may have been
  added. -/
  | branch {input : String} {branches : List BranchSpec} {b : BranchSpec} {condition : Expr}
      {split : NodeId} {t t' : Draft} : b ∈ branches → Expr.ofYaml b.condition = .ok condition →
    GrowsBy (branches.map BranchSpec.name) d t → t.plan.HasType split .split →
    d.plan.graph.contains split = false →
    Draft.compile condition [split] (Draft.describe .splitOutput b.name) t = .error e t' →
    LateFault d e (.split input branches)
  | repeated {st : Statement} : ¬st.inputs.Nodup → e.IsAboutRepetition → LateFault d e st
  | items {name input : String} {items : List ItemSpec} :
    e.IsAboutColumns → LateFault d e (.forEach name input items)
  | joined {name : String} {inputs : List JoinSpec} {type : JoinType} :
    e.IsAboutColumns → LateFault d e (.join name inputs type)
  | crossed {name : String} {inputs : List String} :
    e.IsAboutColumns → LateFault d e (.cross name inputs)

/-- What a statement can be rejected for when it has already added operators to a draft, all of
whose inputs are known. -/
structure FailsLate (d : Draft) (e : Error) (st : Statement) : Prop where
  known : ∀ name ∈ st.inputs, (d.names[name]?).isSome = true
  fault : st.LateFault d e

end Statement

namespace Draft

/-! ## Inputs -/

theorem input_eq_ok (h : d.Sown n) :
    input name user d = .ok key d' ↔ d.names[name]? = some key ∧ d = d' := by
  have hlookup : ∀ id, d.lookup name user = .ok id ↔ d.names[name]? = some id := by
    intro id
    unfold lookup
    cases hname : d.names[name]? with
    | none => simp
    | some id' => simp [current?, Plan.contains, h.contains hname]
  unfold input
  rw [Pass.bind_of_ok Pass.get_apply, ← hlookup]
  cases d.lookup name user with
  | ok id' =>
    show EStateM.Result.ok id' d = _ ↔ _
    simp
  | error e =>
    show EStateM.Result.error e d = _ ↔ _
    simp

/-- The names mean the operators. -/
def Mean (d : Draft) (names : List String) (ids : List NodeId) : Prop :=
  List.Forall₂ (fun (name : String) id => d.names[name]? = some id) names ids

theorem mapM_input_eq_ok (h : d.Sown n) : ∀ {names : List String} {ids : List NodeId} {d' : Draft},
    names.mapM (input · user) d = .ok ids d' → d.Mean names ids ∧ d = d'
  | [], ids, d', hrun => by
    obtain ⟨rfl, rfl⟩ : [] = ids ∧ d = d' := by simpa using hrun
    exact ⟨.nil, rfl⟩
  | name :: names, ids, d', hrun => by
    rw [List.mapM_cons] at hrun
    obtain ⟨id, t, hinput, hrun⟩ := Pass.bind_eq_ok.mp hrun
    obtain ⟨hid, rfl⟩ := (input_eq_ok h).mp hinput
    obtain ⟨rest, t, hinputs, hrun⟩ := Pass.bind_eq_ok.mp hrun
    obtain ⟨hrest, rfl⟩ := mapM_input_eq_ok h hinputs
    obtain ⟨rfl, rfl⟩ : id :: rest = ids ∧ d = d' := by simpa using hrun
    exact ⟨.cons hid hrest, rfl⟩

/-- Different names mean different operators. -/
theorem Mean.nodup (h : d.Sown n) : ∀ {names : List String} {ids : List NodeId},
    d.Mean names ids → names.Nodup → ids.Nodup
  | _, _, .nil, _ => List.nodup_nil
  | name :: names, id :: ids, .cons hid hmean, hnodup => by
    obtain ⟨hnew, hnodup⟩ := List.nodup_cons.mp hnodup
    refine List.nodup_cons.mpr ⟨fun hmem => hnew ?_, Mean.nodup h hmean hnodup⟩
    obtain ⟨i, hi, heq⟩ := List.getElem_of_mem hmem
    have hi' : i < names.length := hmean.length_eq ▸ hi
    have hname := hmean.get hi' hi
    simp only [List.get_eq_getElem, heq] at hname
    exact h.injective name names[i] id hid hname ▸ List.getElem_mem hi'

theorem Mean.known {names : List String} (hmean : d.Mean names ids) :
    ∀ name ∈ names, (d.names[name]?).isSome = true := by
  intro name hname
  obtain ⟨id, -, hid⟩ := Lists.exists_of_forall₂ hmean hname
  rw [hid]
  rfl

/-- Operators that produce rows. -/
def Feeds (d : Draft) (ids : List NodeId) : Prop :=
  ∀ id ∈ ids, ∃ t, d.plan.HasType id t ∧ t ≠ .store

theorem Mean.feeds {names : List String} (h : d.Sown n) (hmean : d.Mean names ids) :
    d.Feeds ids := by
  intro id hid
  obtain ⟨name, -, hname⟩ := Lists.exists_of_forall₂ hmean.flip hid
  exact h.names name id hname

theorem Feeds.untouched (h : d.Feeds ids) (hd : Untouched d d') : d'.Feeds ids := by
  intro id hid
  obtain ⟨t, ht, hstore⟩ := h id hid
  exact ⟨t, hd.plan.sameOperators.hasType.mpr ht, hstore⟩

/-- Adding an operator to such inputs fails only if one of them is taken twice. -/
theorem append_eq_error {o : Operation} (h : d.Sown n) (hroom : n + 1 < 2 ^ 64)
    (hids : d.Feeds ids) (ho : o.type ≠ .load)
    (hmany : o.type.allowsMultipleInputs = true ∨ ids.length ≤ 1)
    (hrun : append name ids o d = .error e d') : ¬ids.Nodup ∧ e.IsAboutRepetition := by
  rw [append_apply] at hrun
  rcases Plan.append_cases h.plan hroom { name := some name, operation := o } ho hids hmany with
    ⟨q, hq⟩ | ⟨hnot, a, b, q, hq⟩
  · simp [hq, appended] at hrun
  · obtain ⟨rfl, -⟩ : _ = e ∧ _ = d' := by simpa [hq, appended] using hrun
    exact ⟨hnot, a, b, rfl⟩

theorem append_ne_error {o : Operation} {id : NodeId} (h : d.Sown n) (hroom : n + 1 < 2 ^ 64)
    (hids : d.Feeds [id]) (ho : o.type ≠ .load) : append name [id] o d ≠ .error e d' := fun hrun =>
  (append_eq_error h hroom hids ho (.inr (by simp)) hrun).1 (List.nodup_singleton id)

/-- A schema of a draft cannot be derived only because of columns. -/
theorem checked_eq_error (h : d.Sown n) (hid : d.plan.graph.contains key = true)
    (hrun : checked key d = .error e d') : e.IsAboutColumns := by
  unfold checked at hrun
  rcases Pass.bind_eq_error.mp hrun with hrun | ⟨_, _, -, hrun⟩
  · have hrun := Pass.discard_eq_error.mp hrun
    unfold onPlan at hrun
    cases hschema : Plan.schema key d.plan with
    | ok s q => simp [hschema] at hrun
    | error e' q =>
      obtain ⟨rfl, -⟩ : e' = e ∧ _ = d' := by simpa [hschema] using hrun
      obtain ⟨-, z, op, -, -, hfails⟩ :=
        Plan.schema_eq_error h.plan.coherent h.plan.wellFormed h.plan.acyclic hid hschema
      rcases Operator.deriveSchema_eq_error _ hfails with ⟨column, rfl⟩ | ⟨column, width, rfl⟩
      · exact .inl ⟨column, _, rfl⟩
      · exact .inr ⟨_, column, width, rfl⟩
  · simp at hrun

/-- Adding an operator and asking for its schema fails only if an input is taken twice, or for its
columns. -/
theorem checked_append_error {o : Operation} (h : d.Sown n) (hroom : n + 1 < 2 ^ 64)
    (hids : d.Feeds ids) (hload : o.type ≠ .load) (hstore : o.type ≠ .store)
    (hmany : o.type.allowsMultipleInputs = true ∨ ids.length ≤ 1)
    (hrun : (do checked (← append name ids o) : Edit NodeId) d = .error e d') :
    ¬ids.Nodup ∧ e.IsAboutRepetition ∨ e.IsAboutColumns := by
  rcases Pass.bind_eq_error.mp hrun with hrun | ⟨id, t, happend, hrun⟩
  · exact .inl (append_eq_error h hroom hids hload hmany hrun)
  · obtain ⟨-, ht, -, hcore, -⟩ := append_eq_ok h hroom hstore happend
    exact .inr (checked_eq_error ht (by rw [Plan.contains_eq_core?, hcore]; rfl) hrun)

/-- Branches behind a split fail only where a condition is wrong. -/
theorem branches_eq_error {names : List String} {split : NodeId} :
    ∀ {parts : List (String × Expr)} {d : Draft} {n : Nat}, d.Sown n →
      n + parts.length < 2 ^ 64 → d.plan.HasType split .split →
      (∀ part ∈ parts, part.1 ∈ names) →
      (parts.mapM fun (name, condition) => branch split name condition) d = .error e d' →
      ∃ part ∈ parts, ∃ t t', GrowsBy names d t ∧ t.plan.HasType split .split ∧
        compile part.2 [split] (describe .splitOutput part.1) t = .error e t'
  | [], d, n, _, _, _, _, hrun => by
    rw [List.mapM_nil] at hrun
    cases hrun
  | (name, condition) :: parts, d, n, h, hroom, hsplit, hnames, hrun => by
    rw [List.length_cons] at hroom
    obtain ⟨hname, hnames⟩ := List.forall_mem_cons.mp hnames
    rw [List.mapM_cons] at hrun
    rcases Pass.bind_eq_error.mp hrun with hrun | ⟨id, d₁, hbranch, hrun⟩
    · -- adding the branch cannot fail
      rcases Pass.bind_eq_error.mp hrun with hcompile | ⟨f, t, hcompile, happend⟩
      · exact ⟨_, List.mem_cons_self, d, d', .refl, hsplit, hcompile⟩
      · obtain ⟨ht, huntouched⟩ := (reads_compile _ _ _).ok h hcompile
        have hfeeds : d.Feeds [split] := fun id hid =>
          ⟨.split, List.mem_singleton.mp hid ▸ hsplit, by simp⟩
        exact absurd happend (append_ne_error ht (by omega) (hfeeds.untouched huntouched)
          (by simp [Operation.type]))
    · have hbranch : branch split name condition d = .ok id d₁ := hbranch
      have hadded := adds_branch hname split condition n d (by omega) h
      rw [Pass.after, hbranch] at hadded
      obtain ⟨h₁, hgrows₁⟩ := hadded
      rcases Pass.bind_eq_error.mp hrun with hrest | ⟨_, _, -, hpure⟩
      · obtain ⟨part, hpart, t, t', hgrows, ht, hcompile⟩ := branches_eq_error h₁ (by omega)
          (hgrows₁.plan.hasType hsplit) hnames hrest
        exact ⟨part, List.mem_cons_of_mem _ hpart, t, t', hgrows₁.trans hgrows, ht, hcompile⟩
      · cases hpure

/-! ## Statements -/

/-- When the step fails, nothing was added yet, or else the error is of the given kind. -/
def FailsEarly (late : Error → Prop) (x : Edit β) (d : Draft) : Prop :=
  ∀ e d', x d = .error e d' → Untouched d d' ∨ late e

namespace FailsEarly

variable {late : Error → Prop} {o : Operation}

theorem read_bind {x : Edit β} {f : β → Edit γ} (hx : Reads x) (h : d.Sown n)
    (hf : ∀ b d', x d = .ok b d' → d'.Sown n → Untouched d d' → FailsEarly late (f b) d') :
    FailsEarly late (x >>= f) d := by
  intro e d' hrun
  rcases Pass.bind_eq_error.mp hrun with hrun | ⟨b, t, hb, hrun⟩
  · exact .inl (hx.error h hrun).2
  · obtain ⟨ht, huntouched⟩ := hx.ok h hb
    exact (hf b t hb ht huntouched e d' hrun).imp_left huntouched.trans

theorem map {x : Edit β} {f : β → γ} (hx : FailsEarly late x d) :
    FailsEarly late (do return f (← x)) d := by
  intro e d' hrun
  rcases Pass.bind_eq_error.mp hrun with hrun | ⟨b, t, hb, hrun⟩
  · exact hx e d' hrun
  · simp at hrun

theorem ofResult_bind {r : Result β} {f : β → Edit γ}
    (hf : ∀ b, r = .ok b → FailsEarly late (f b) d) : FailsEarly late (ofResult r >>= f) d := by
  cases r with
  | ok b => exact hf b rfl
  | error e =>
    intro e' d' hrun
    cases hrun
    exact .inl .refl

theorem append (h : d.Sown n) (hroom : n + 1 < 2 ^ 64) (hids : d.Feeds ids) (ho : o.type ≠ .load)
    (hmany : o.type.allowsMultipleInputs = true ∨ ids.length ≤ 1)
    (htwice : ∀ e : Error, ¬ids.Nodup → e.IsAboutRepetition → late e) :
    FailsEarly late (Draft.append name ids o) d := fun e _ hrun =>
  have hfault := append_eq_error h hroom hids ho hmany hrun
  .inr (htwice e hfault.1 hfault.2)

theorem append_one {id : NodeId} (h : d.Sown n) (hroom : n + 1 < 2 ^ 64) (hid : d.Feeds [id])
    (ho : o.type ≠ .load) : FailsEarly late (Draft.append name [id] o) d :=
  fun _ _ hrun => absurd hrun (append_ne_error h hroom hid ho)

theorem checked (h : d.Sown n) (hroom : n + 1 < 2 ^ 64) (hids : d.Feeds ids)
    (hload : o.type ≠ .load) (hstore : o.type ≠ .store)
    (hmany : o.type.allowsMultipleInputs = true ∨ ids.length ≤ 1)
    (htwice : ∀ e : Error, ¬ids.Nodup → e.IsAboutRepetition → late e)
    (hcolumns : ∀ e : Error, e.IsAboutColumns → late e) :
    FailsEarly late (do Draft.checked (← Draft.append name ids o)) d := by
  intro e d' hrun
  rcases checked_append_error h hroom hids hload hstore hmany hrun with ⟨hnot, he⟩ | he
  · exact .inr (htwice e hnot he)
  · exact .inr (hcolumns e he)

/-- What takes a single input. -/
theorem input {f : NodeId → Edit β} (h : d.Sown n)
    (hf : ∀ id, d.Mean [name] [id] → FailsEarly late (f id) d) :
    FailsEarly late (Draft.input name user >>= f) d := by
  refine read_bind (reads_input _ _) h fun id d' hinput _ _ => ?_
  obtain ⟨hid, rfl⟩ := (input_eq_ok h).mp hinput
  exact hf id (.cons hid .nil)

/-- What takes several inputs. -/
theorem inputs {names : List String} {f : List NodeId → Edit β} (h : d.Sown n)
    (hf : ∀ ids, d.Mean names ids → FailsEarly late (f ids) d) :
    FailsEarly late (names.mapM (Draft.input · user) >>= f) d := by
  refine read_bind (.mapM (fun _ => reads_input _ _) _) h fun ids d' hids _ _ => ?_
  obtain ⟨hmean, rfl⟩ := mapM_input_eq_ok h hids
  exact hf ids hmean

/-- What takes several inputs, each with something else. -/
theorem sources {α : Type} {as : List α} {nameOf : α → String} {g : α → Edit NodeId}
    {f : List NodeId → Edit β} (hg : ∀ a, g a = Draft.input (nameOf a) user) (h : d.Sown n)
    (hf : ∀ ids, d.Mean (as.map nameOf) ids → FailsEarly late (f ids) d) :
    FailsEarly late (as.mapM g >>= f) d := by
  have hinputs : as.mapM g = (as.map nameOf).mapM (Draft.input · user) := by
    rw [List.mapM_map]
    exact congrArg as.mapM (funext hg)
  rw [hinputs]
  exact inputs h hf

end FailsEarly

end Draft

namespace Statement

open Draft

theorem names_of_sources {inputs : List JoinSpec} {sources : List (String × List Expr)}
    (h : (inputs.mapM fun i => do return (i.input, ← expressions id (fun _ e => e) i.keys)) =
      .ok sources) : sources.map Prod.fst = inputs.map JoinSpec.input := by
  refine Pass.map_of_mapM (fun i source hsource => ?_) h
  obtain ⟨keys, -, hsource⟩ := Pass.except_bind_eq_ok.mp hsource
  obtain rfl := Except.ok.inj hsource
  rfl

/-- A split that is rejected without a trace, or else for the condition of a branch. -/
theorem failsEarly_split {input : String} {branches : List BranchSpec} (h : d.Sown n)
    (hroom : n + (1 + branches.length) < 2 ^ 64) :
    FailsEarly (fun e => (Statement.split input branches).FailsLate d e)
      (Statement.split input branches).apply d := by
  refine .ofResult_bind fun parts hparts => .input h fun id hid => ?_
  have hnames : parts.map Prod.fst = branches.map BranchSpec.name :=
    map_of_expressions (fun _ _ => rfl) hparts
  have hlen : parts.length = branches.length := by
    rw [← List.length_map (f := Prod.fst), hnames, List.length_map]
  obtain ⟨q, hq⟩ := Plan.append_succeeds h.plan (by omega) { operation := .split }
    (by simp [Operator.type, Operation.type]) (List.nodup_singleton id) (hid.feeds h)
    (.inr (by simp))
  have hsplit : onPlan (Plan.append { operation := .split } [id]) d =
      .ok d.plan.next { d with plan := q } := by simp only [onPlan, hq]
  have hadds : Adds (branches.map BranchSpec.name) 1
      (onPlan (Plan.append { operation := .split } [id])) := adds_insert _ _
  have hadded := hadds n d (by omega) h
  rw [Pass.after, hsplit] at hadded
  obtain ⟨-, -, -, hcore, -⟩ := Plan.append_eq_ok h.plan (by omega) hq
  have htype : q.HasType d.plan.next .split := Plan.hasType_iff_core?.mpr ⟨_, hcore, rfl⟩
  intro e d' hrun
  rw [Pass.bind_of_ok hsplit] at hrun
  obtain ⟨part, hpart, t, t', hgrows, ht, hcompile⟩ := branches_eq_error hadded.1 (by omega) htype
    (fun part hpart => hnames ▸ List.mem_map_of_mem hpart) hrun
  obtain ⟨b, hb, hmade⟩ := Pass.exists_of_mem_mapM hparts part hpart
  obtain ⟨condition, hcondition, hmade⟩ := Pass.except_bind_eq_ok.mp hmade
  obtain rfl := Except.ok.inj hmade
  exact .inr ⟨hid.known, .branch hb hcondition (hadded.2.trans hgrows) ht h.plan.fresh hcompile⟩

theorem failsEarly_apply (h : d.Sown n) (hroom : n + st.keys < 2 ^ 64) :
    FailsEarly (fun e => st.FailsLate d e) st.apply d := by
  have htwice {ids : List NodeId} (hmean : d.Mean st.inputs ids) (e : Error) (hnot : ¬ids.Nodup)
      (he : e.IsAboutRepetition) : st.FailsLate d e :=
    ⟨hmean.known, .repeated (fun hnodup => hnot (hmean.nodup h hnodup)) he⟩
  cases st with
  | load name path columns =>
    refine .ofResult_bind fun declared _ => .map fun e t hrun => ?_
    have hload : ∀ op, Plan.append op [] d.plan = .ok d.plan.next (d.plan.add op).2 :=
      fun op => Plan.append_apply []
    rw [Draft.load, append_apply, hload] at hrun
    simp [appended] at hrun
  | filter name input predicate =>
    refine .ofResult_bind fun p _ => .map (.input h fun id hid => ?_)
    refine .read_bind (reads_compile _ _ _) h fun f d₂ _ h₂ huntouched => ?_
    exact .append_one h₂ hroom ((hid.feeds h).untouched huntouched) (by simp [Operation.type])
  | forEach name input items =>
    refine .ofResult_bind fun p _ => .map (.input h fun id hid => ?_)
    refine .read_bind (.mapM (fun _ => .bind (reads_compile _ _ _) fun _ => .pure) _) h
      fun items d₂ _ h₂ huntouched => ?_
    exact .checked h₂ hroom ((hid.feeds h).untouched huntouched) (by simp [Operation.type])
      (by simp [Operation.type]) (.inr (by simp)) (htwice hid) fun _ he => ⟨hid.known, .items he⟩
  | join name inputs type =>
    refine .ofResult_bind fun sources hsources =>
      .map (.sources (fun _ => rfl) h fun ids hids => ?_)
    rw [names_of_sources hsources] at hids
    refine .read_bind (reads_joinKeys _ _ _) h fun keys d₂ _ h₂ huntouched => ?_
    dsimp only
    split
    · exact .checked h₂ hroom ((hids.feeds h).untouched huntouched) (by simp [Operation.type])
        (by simp [Operation.type]) (.inl rfl) (htwice hids) fun _ he => ⟨hids.known, .joined he⟩
    · exact .read_bind .throw h₂ fun _ _ hrun => by simp at hrun
  | cross name inputs =>
    refine .map (.inputs h fun ids hids => ?_)
    exact .checked h hroom (hids.feeds h) (by simp [Operation.type]) (by simp [Operation.type])
      (.inl rfl) (htwice hids) fun _ he => ⟨hids.known, .crossed he⟩
  | union name inputs =>
    refine .map (.inputs h fun ids hids => ?_)
    exact .append h hroom (hids.feeds h) (by simp [Operation.type]) (.inl rfl) (htwice hids)
  | distinct name input =>
    refine .map (.input h fun id hid => ?_)
    exact .append_one h hroom (hid.feeds h) (by simp [Operation.type])
  | split input branches => exact failsEarly_split h hroom
  | sort name input keys =>
    refine .ofResult_bind fun p _ => .map (.input h fun id hid => ?_)
    refine .read_bind (.mapM (fun _ => .bind (reads_compile _ _ _) fun _ => .pure) _) h
      fun items d₂ _ h₂ huntouched => ?_
    exact .append_one h₂ hroom ((hid.feeds h).untouched huntouched) (by simp [Operation.type])
  | limit name input count =>
    refine .map (.input h fun id hid => ?_)
    exact .append_one h hroom (hid.feeds h) (by simp [Operation.type])
  | store input path =>
    refine .map (.input h fun id hid => fun e t hrun => ?_)
    obtain ⟨q, hq⟩ := Plan.append_succeeds h.plan hroom { operation := .store path }
      (by simp [Operator.type, Operation.type]) (List.nodup_singleton id) (hid.feeds h)
      (.inr (by simp))
    simp [onPlan, hq] at hrun

end Statement

namespace Session

open Draft (GrowsBy Untouched)

variable {s s' : Session}

/-- A location has no part in what a statement can be rejected for late. -/
theorem failsLate_canonical {st' : Statement} (hst : s.canonical st = .ok st')
    (h : st'.FailsLate d e) : st.FailsLate d e := by
  cases st with
  | load name path columns =>
    obtain ⟨location, -, hst⟩ := Pass.except_bind_eq_ok.mp hst
    obtain rfl := Except.ok.inj hst
    obtain ⟨hknown, hfault⟩ := h
    cases hfault with
    | repeated hnodup he => exact ⟨hknown, .repeated hnodup he⟩
  | store input path =>
    obtain ⟨location, -, hst⟩ := Pass.except_bind_eq_ok.mp hst
    obtain rfl := Except.ok.inj hst
    obtain ⟨hknown, hfault⟩ := h
    cases hfault with
    | repeated hnodup he => exact ⟨hknown, .repeated hnodup he⟩
  | _ =>
    obtain rfl := Except.ok.inj hst
    exact h

/-- However a session came to be: a statement that is rejected takes nothing away. It adds nothing
either, unless all its inputs are known and what is wrong shows only when operators have been
added. -/
theorem register_rejected {steps : List Step} {resolver : Location.Resolver} {directory : String}
    (hkeys : Step.totalKeys steps + st.keys < 2 ^ 64)
    (hs : Step.runAll steps { resolver, directory } = s) (hrun : register st s = .error e s') :
    s'.stores = s.stores ∧ GrowsBy st.names s.draft s'.draft ∧
      (Untouched s.draft s'.draft ∨ st.FailsLate s.draft e) := by
  have h := Step.sown_of_history (Nat.lt_of_le_of_lt (Nat.le_add_right _ _) hkeys) hs
  have hgrows := (register_keeps h hkeys).2
  rw [Pass.after, hrun] at hgrows
  rw [register_eq] at hrun
  cases hst : s.canonical st with
  | error e' =>
    obtain ⟨-, rfl⟩ : e' = e ∧ { s with compiled := false } = s' := by simpa [hst] using hrun
    exact ⟨rfl, hgrows, .inl .refl⟩
  | ok st' =>
    rw [hst] at hrun
    cases happly : st'.apply s.draft with
    | ok ids d => simp [happly, registered] at hrun
    | error e' d =>
      obtain ⟨rfl, rfl⟩ : e' = e ∧ { s with draft := d, compiled := false } = s' := by
        simpa [happly, registered] using hrun
      have hearly := st'.failsEarly_apply h ((canonical_same hst).2 ▸ hkeys) e' d happly
      exact ⟨rfl, hgrows, hearly.imp_right (failsLate_canonical hst)⟩

/-- A session that knows one input. -/
def loaded : Session :=
  Step.runAll [.register (.load "A" "/in" (some [.mk "x" "int" none]))] { directory := "/" }

/-- A split whose second branch reads a column that there is not. -/
def halfSplit : Statement :=
  .split "A" [⟨"B", .bool true⟩, ⟨"C", .mapping [(.string "col", .string "y")]⟩]

/-- A split of an input that there is not. -/
def strayedSplit : Statement := .split "Z" [⟨"B", .bool true⟩]

/-- The first split is rejected when it and its first branch have been added, the second one before
anything is added. -/
theorem halfSplit_rejected : (∃ e s', register halfSplit loaded = .error e s' ∧
      s'.stores = loaded.stores ∧ GrowsBy ["B", "C"] loaded.draft s'.draft ∧
      ¬Untouched loaded.draft s'.draft ∧ halfSplit.FailsLate loaded.draft e) ∧
    ∃ e s', register strayedSplit loaded = .error e s' ∧ Untouched loaded.draft s'.draft := by
  have hloaded : Step.runAll [.register (.load "A" "/in" (some [.mk "x" "int" none]))]
      { directory := "/" } = loaded := rfl
  constructor
  · have hfails : Pass.result? (register halfSplit) loaded = none := by decide +kernel
    have hids : (Pass.after (register halfSplit) loaded).plan.graph.ids ≠
        loaded.plan.graph.ids := by
      decide +kernel
    cases hrun : register halfSplit loaded with
    | ok ids s' => simp [Pass.result?, hrun] at hfails
    | error e s' =>
      rw [Pass.after, hrun] at hids
      have htouched : ¬Untouched loaded.draft s'.draft := fun h => hids h.plan.ids
      obtain ⟨hstores, hgrows, hlate⟩ := register_rejected (by decide) hloaded hrun
      exact ⟨e, s', rfl, hstores, hgrows, htouched, hlate.resolve_left htouched⟩
  · have hfails : Pass.result? (register strayedSplit) loaded = none := by decide +kernel
    cases hrun : register strayedSplit loaded with
    | ok ids s' => simp [Pass.result?, hrun] at hfails
    | error e s' =>
      obtain ⟨-, -, hlate⟩ := register_rejected (by decide) hloaded hrun
      have hknown : ¬strayedSplit.FailsLate loaded.draft e := fun h =>
        absurd (h.known "Z" (List.mem_singleton_self "Z")) (by decide +kernel)
      exact ⟨e, s', rfl, hlate.resolve_right hknown⟩

/-- Not every statement that is rejected leaves the session as it was: a cross of an input with
itself is rejected when it is connected for the second time. -/
theorem not_untouched_of_rejected : ¬∀ (steps : List Step) (st : Statement) (e : Error)
    (s' : Session), register st (Step.runAll steps { directory := "/" }) = .error e s' →
      Untouched (Step.runAll steps { directory := "/" }).draft s'.draft := by
  intro h
  have hfails : Pass.result? (register (.cross "X" ["A", "A"])) loaded = none := by decide +kernel
  have hids : (Pass.after (register (.cross "X" ["A", "A"])) loaded).plan.graph.ids ≠
      loaded.plan.graph.ids := by decide +kernel
  cases hrun : register (.cross "X" ["A", "A"]) loaded with
  | ok ids s' => simp [Pass.result?, hrun] at hfails
  | error e s' =>
    rw [Pass.after, hrun] at hids
    exact hids (h _ _ e s' hrun).plan.ids

end Session

end Dataflow

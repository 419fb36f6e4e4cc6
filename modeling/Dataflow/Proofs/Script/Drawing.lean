import Dataflow.Proofs.Formula.Building
import Dataflow.Proofs.Plan.Unnumbered
import Dataflow.Proofs.Script.Rejection

/-!
# What a statement adds

A statement that is taken adds one operator behind its inputs, and a split adds its branches behind
that. Which operators these are follows from the statement and the outlines of its inputs alone
(`Statement.drawing`, `Statement.apply_eq_ok`), whatever else the draft holds: of the plan only the
identities of columns go into them, which are left out of account here.
-/

namespace Dataflow

open Dataflow.Expr (Inputs)

variable {p q : Plan} {o : NodeId → Option Schema} {n : Nat} {z : NodeId} {op : Operator}

namespace Plan

/-- The operator at `z` is this one but for identities, and reads these inputs. -/
structure Holds (p : Plan) (z : NodeId) (op : Operator) (inputs : List NodeId) : Prop where
  core : (p.core? z).map Operator.unnumbered = some op.unnumbered
  inputs : p.dataInputs z = inputs

theorem Holds.contains {inputs : List NodeId} (h : p.Holds z op inputs) :
    p.graph.contains z = true := by
  rw [contains_eq_core?, ← Option.isSome_map, h.core]
  rfl

/-- Operators that differ only in identities. -/
theorem Holds.exists_core {inputs : List NodeId} (h : p.Holds z op inputs) :
    ∃ op', p.core? z = some op' ∧ op'.unnumbered = op.unnumbered :=
  Option.map_eq_some_iff.mp h.core

theorem Holds.hasPlace {inputs : List NodeId} (h : p.Holds z op inputs) {t : OperatorType}
    {location : String} : p.HasPlace t z location ↔
      op.operation.location?.map (op.type, ·) = some (t, location) := by
  obtain ⟨op', hop', hsame⟩ := h.exists_core
  have htype : op'.type = op.type := by
    rw [← Operator.type_unnumbered, hsame, Operator.type_unnumbered]
  have hlocation : op'.operation.location? = op.operation.location? := by
    rw [← Operation.location?_unnumbered, ← Operation.location?_unnumbered op.operation]
    exact congrArg (fun op : Operator => op.operation.location?) hsame
  unfold HasPlace
  simp [hop', htype, hlocation, and_comm]

theorem Holds.formulas {inputs : List NodeId} (h : p.Holds z op inputs) {op' : Operator}
    (hop' : p.operator? z = some op') : op'.operation.formulas = op.operation.formulas := by
  obtain ⟨core, hcore, hsame⟩ := h.exists_core
  rw [core?, hop', Option.map_some, Option.some.injEq] at hcore
  rw [← hcore, Operator.unnumbered_core] at hsame
  rw [← Operation.formulas_unnumbered, ← Operation.formulas_unnumbered op.operation]
  exact congrArg (fun op : Operator => op.operation.formulas) hsame

/-- What was there still is, and rows come to it as before. -/
structure Retains (p q : Plan) : Prop where
  core? : ∀ z, p.graph.contains z = true → q.core? z = p.core? z
  dataInputs : ∀ z, p.graph.contains z = true → q.dataInputs z = p.dataInputs z

theorem Grows.retains (h : Grows p q) : Retains p q where
  core? := h.core?
  dataInputs z hz := by
    obtain ⟨op, hop⟩ := Option.isSome_iff_exists.mp (contains_eq_core? ▸ hz)
    rw [dataInputs_of_core? hop, dataInputs_of_core? ((h.core? z hz).trans hop),
      h.predecessors z hz]

theorem Holds.retained {inputs : List NodeId} (h : p.Holds z op inputs) (hq : Retains p q) :
    q.Holds z op inputs where
  core := by rw [hq.core? z h.contains, h.core]
  inputs := by rw [hq.dataInputs z h.contains, h.inputs]

theorem nameOf_eq_core? : p.nameOf z = (p.core? z).bind Operator.name := by
  rw [Plan.nameOf, Plan.core?, Option.bind_map]
  rfl

theorem Holds.nameOf {inputs : List NodeId} (h : p.Holds z op inputs) : p.nameOf z = op.name := by
  obtain ⟨op', hop', hsame⟩ := h.exists_core
  rw [nameOf_eq_core?, hop', Option.bind_some, ← Operator.name_unnumbered, hsame,
    Operator.name_unnumbered]

/-- What outlines a plan outlines what was there before. -/
theorem Outlined.of_retains (ho : q.Outlined o) (hp : p.graph.WellFormed) (h : Retains p q) :
    p.Outlined o := by
  intro z op hop
  have hz : p.graph.contains z = true := by
    rw [contains_eq_core?, hop]
    rfl
  have hnames : (p.dataInputs z).map p.nameOf = (p.dataInputs z).map q.nameOf := by
    refine List.map_congr_left fun x hx => ?_
    rw [nameOf_eq_core?, nameOf_eq_core?, h.core? x (contains_of_mem_dataInputs hp hx)]
  rw [hnames, ← h.dataInputs z hz]
  exact ho z op ((h.core? z hz).trans hop)

theorem Outlined.of_holds {inputs : List NodeId} (ho : p.Outlined o) (h : p.Holds z op inputs) :
    op.outline? (inputs.map o) (inputs.map p.nameOf) = .ok (o z) := by
  obtain ⟨op', hop', hsame⟩ := h.exists_core
  rw [← Operator.outline?_unnumbered, ← hsame, Operator.outline?_unnumbered, ← h.inputs]
  exact ho z op' hop'

/-- What is added to a plan is there. -/
theorem holds_of_append {inputs : List NodeId} (hcore : q.core? z = some (p.numbered op).core)
    (hpre : q.graph.predecessors z = inputs) (hload : op.type = .load → inputs = []) :
    q.Holds z op inputs where
  core := by
    rw [hcore, Option.map_some, Operator.unnumbered_core, unnumbered_numbered]
  inputs := by
    have htype : (p.numbered op).core.type = op.type := by
      rw [Operator.type_core]
      exact Operation.type_withUids op.operation p.uids
    rw [dataInputs_of_core? hcore, htype, hpre]
    split_ifs with ht
    · exact (hload ht).symm
    · rfl

end Plan

/-! ## Drawings -/

/-- The operators that a statement adds: the first one reads the inputs of the statement, and the
others read the first one. -/
structure Drawing where
  first : Operator
  others : List Operator := []

namespace Statement

/-- A branch of a split that reads these schemas. -/
def drawBranch (schemas : Inputs) (b : String × Expr) : Result Operator := do
  let f ← b.2.compiled schemas (Draft.describe .splitOutput b.1)
  return { name := some b.1, operation := .splitOutput f }

/-- What a statement adds to inputs with the given schemas. -/
def drawing (st : Statement) (schemas : Inputs) : Result Drawing := do
  match st with
  | .load name path columns =>
    let declared ← ColumnSpec.nestedSchema columns
    return { first := { name := some name, operation := .load { location := path, declared } } }
  | .filter name _ predicate =>
    let e ← Expr.ofYaml predicate
    let f ← e.compiled schemas (Draft.describe .filter name)
    return { first := { name := some name, operation := .filter f } }
  | .forEach name _ items =>
    let items ← expressions ItemSpec.expr
      (fun i expr => ({ expr, flatten := i.flatten, name := i.name } : Draft.Item)) items
    let items ← items.mapM fun item => do
      return { formula := ← item.expr.compiled schemas (Draft.describe .forEach name),
               flatten := item.flatten, name := item.name }
    return { first := { name := some name, operation := .forEach items } }
  | .join name inputs type =>
    let sources ← inputs.mapM fun i => do
      return (i.input, ← expressions id (fun _ e => e) i.keys)
    let keys ← (sources.map Prod.snd).zipIdx.mapM fun x => x.1.mapM fun e =>
      (e.onInput x.2).compiled schemas (Draft.describe .join name)
    return { first := { name := some name, operation := .join type keys } }
  | .cross name _ => return { first := { name := some name, operation := .cross } }
  | .union name _ => return { first := { name := some name, operation := .union [] } }
  | .distinct name _ => return { first := { name := some name, operation := .distinct } }
  | .split _ branches =>
    let branches ← expressions BranchSpec.condition (fun b e => (b.name, e)) branches
    return { first := { operation := .split }, others := ← branches.mapM (drawBranch schemas) }
  | .sort name _ keys =>
    let keys ← expressions SortSpec.expr (fun k e => (e, !k.descending)) keys
    let keys ← keys.mapM fun k => do
      return { formula := ← k.1.compiled schemas (Draft.describe .sort name), ascending := k.2 }
    return { first := { name := some name, operation := .sort keys } }
  | .limit name _ count => return { first := { name := some name, operation := .limit count } }
  | .store _ path => return { first := { operation := .store path } }

end Statement

namespace Draft

open Statement (drawBranch)

variable {d d' d'' : Draft} {β γ : Type} {x : Drawing} {inputs keys ids : List NodeId}
  {key : NodeId}

/-- The draft holds the drawn operators under these keys, with their names bound to them. -/
structure Laid (d : Draft) (x : Drawing) (inputs : List NodeId) (key : NodeId)
    (keys : List NodeId) : Prop where
  first : d.plan.Holds key x.first inputs
  others : List.Forall₂ (fun op k => d.plan.Holds k op [key]) x.others keys
  names : List.Forall₂ (fun op k => ∀ name : String, op.name = some name →
    d.names[name]? = some k) (x.first :: x.others) (key :: keys)

/-! ## Steps that answer -/

/-- Whenever the step succeeds, it only reads, and its answer is given by the outlines. -/
def Answers (o : NodeId → Option Schema) (n : Nat) (x : Edit β) (r : Result β) : Prop :=
  ∀ d b d', d.Sown n → d.plan.Outlined o → x d = .ok b d' →
    r = .ok b ∧ d'.Sown n ∧ Untouched d d'

namespace Answers

theorem pure {b : β} : Answers o n (pure b) (.ok b) := by
  intro d c d' h _ hrun
  obtain ⟨rfl, rfl⟩ : b = c ∧ d = d' := by simpa using hrun
  exact ⟨rfl, h, .refl⟩

theorem bind {x : Edit β} {r : Result β} {f : β → Edit γ} {g : β → Result γ}
    (hx : Answers o n x r) (hf : ∀ b, Answers o n (f b) (g b)) :
    Answers o n (x >>= f) (r >>= g) := by
  intro d c d' h ho hrun
  obtain ⟨b, t, hb, hrun⟩ := Pass.bind_eq_ok.mp hrun
  obtain ⟨rfl, ht, hdt⟩ := hx d b t h ho hb
  obtain ⟨hg, h', htd⟩ := hf b t c d' ht (ho.alike hdt.plan) hrun
  exact ⟨hg, h', hdt.trans htd⟩

theorem mapM {f : β → Edit γ} {g : β → Result γ} (hf : ∀ b, Answers o n (f b) (g b)) :
    ∀ bs : List β, Answers o n (bs.mapM f) (bs.mapM g)
  | [] => .pure
  | b :: bs => by
    rw [List.mapM_cons, List.mapM_cons]
    exact .bind (hf b) fun _ => .bind (mapM hf bs) fun _ => .pure

end Answers

/-- Asked for schemas, a plan answers with ones of the right outlines. -/
theorem mapM_schema_eq_ok {u : Plan} : ∀ {ids : List NodeId} {p : Plan}
    {schemas : List (Option Schema)}, p.Ready → p.Outlined o →
      ids.mapM Plan.schema p = .ok schemas u → Operator.outlines schemas = ids.map o
  | [], p, schemas, _, _, hrun => by
    obtain ⟨rfl, -⟩ : [] = schemas ∧ p = u := by simpa using hrun
    rfl
  | id :: ids, p, schemas, hp, ho, hrun => by
    rw [List.mapM_cons] at hrun
    obtain ⟨t, r, ht, hrun⟩ := Pass.bind_eq_ok.mp hrun
    obtain ⟨rest, r', hrest, hrun⟩ := Pass.bind_eq_ok.mp hrun
    obtain ⟨rfl, -⟩ : t :: rest = schemas ∧ r' = u := by simpa using hrun
    obtain ⟨hpr, hmemo⟩ := Plan.schema_eq_ok hp.coherent ht
    have hr := hp.extends hpr
    have hor := ho.alike hpr.alike
    rw [Operator.outlines_cons, List.map_cons, hor.memo hr hmemo,
      mapM_schema_eq_ok hr hor hrest]

/-- Which formula an expression becomes depends on the outlines. -/
theorem Answers.compile (e : Expr) (ids : List NodeId) (user : String) :
    Answers o n (compile e ids user) (e.compiled (ids.map o) user) := by
  intro d f d' h ho hrun
  obtain ⟨h', hdd'⟩ := (reads_compile e ids user).ok h hrun
  refine ⟨?_, h', hdd'⟩
  unfold Draft.compile onPlan at hrun
  cases hplan : (do
      let schemas ← ids.mapM Plan.schema
      Plan.ofResult (do Formula.ofExpr (← e.resolve schemas user)) : Plan.Edit Formula) d.plan with
  | error e u => simp [hplan] at hrun
  | ok f' u =>
    obtain ⟨rfl, -⟩ : f' = f ∧ _ = d' := by simpa [hplan] using hrun
    obtain ⟨schemas, r, hschemas, hformula⟩ := Pass.bind_eq_ok.mp hplan
    obtain ⟨hformula, -⟩ := Plan.ofResult_eq_ok.mp hformula
    rw [← mapM_schema_eq_ok h.plan.toReady ho hschemas, Expr.compiled_outlines]
    exact hformula

/-! ## Steps that add -/

theorem Laid.retained (h : d.Laid x inputs key keys) (hd : Plan.Retains d.plan d'.plan)
    (hnames : ∀ (name : String) (id : NodeId), d.names[name]? = some id →
      d'.names[name]? = some id) :
    d'.Laid x inputs key keys where
  first := h.first.retained hd
  others := h.others.imp fun _ _ hk => hk.retained hd
  names := h.names.imp fun _ _ hk name hname => hnames name _ (hk name hname)

theorem Laid.untouched (h : d.Laid x inputs key keys) (hd : Untouched d d') :
    d'.Laid x inputs key keys :=
  h.retained (Plan.Grows.of_alike hd.plan).retains fun _ _ hname => by rwa [hd.names]

/-- An operator without a name that was added. -/
theorem laid_of_insert (h : d.Sown n) (hroom : n + 1 < 2 ^ 64)
    (hload : op.type = .load → inputs = []) (hname : op.name = none)
    (hrun : onPlan (Plan.append op inputs) d = .ok key d') :
    d'.Sown (n + 1) ∧ Plan.Grows d.plan d'.plan ∧ d'.names = d.names ∧
      d'.Laid { first := op } inputs key [] ∧ d'.plan.graph.ids = d.plan.graph.ids ++ [key] := by
  have hadds : Adds [] 1 (onPlan (Plan.append op inputs)) := adds_insert op inputs
  have hsown := (hadds n d hroom h).1
  rw [Pass.after, hrun] at hsown
  unfold onPlan at hrun
  cases hplan : Plan.append op inputs d.plan with
  | error e q => simp [hplan] at hrun
  | ok id' q =>
    obtain ⟨rfl, rfl⟩ : id' = key ∧ _ = d' := by simpa [hplan] using hrun
    obtain ⟨rfl, -, hgrows, hcore, hpre, hids⟩ := Plan.append_eq_ok h.plan hroom hplan
    exact ⟨hsown, hgrows, rfl, ⟨Plan.holds_of_append hcore hpre hload, .nil,
      .cons (fun name hname' => by simp [hname] at hname') .nil⟩, hids⟩

/-- A named operator that was added. -/
theorem laid_of_append {name : String} {o : Operation} (h : d.Sown n) (hroom : n + 1 < 2 ^ 64)
    (ho : o.type ≠ .store) (hload : o.type = .load → inputs = [])
    (hrun : append name inputs o d = .ok key d') :
    d'.Laid { first := { name := some name, operation := o } } inputs key [] ∧
      d'.plan.graph.ids = d.plan.graph.ids ++ [key] := by
  obtain ⟨rfl, -, -, hcore, hpre, hids, hnames⟩ := append_eq_ok h hroom ho hrun
  refine ⟨⟨Plan.holds_of_append hcore hpre hload, .nil, .cons (fun name' hname => ?_) .nil⟩, hids⟩
  obtain rfl := Option.some.inj hname
  rw [hnames, Std.TreeMap.getElem?_insert_self]

theorem mapM_sources_eq_ok {α : Type} {as : List α} {nameOf : α → String} {g : α → Edit NodeId}
    {user : String} (hg : ∀ a, g a = Draft.input (nameOf a) user) (h : d.Sown n)
    (hrun : as.mapM g d = .ok ids d') : d.Mean (as.map nameOf) ids ∧ d = d' := by
  have hinputs : as.mapM g = (as.map nameOf).mapM (Draft.input · user) := by
    rw [List.mapM_map]
    exact congrArg as.mapM (funext hg)
  rw [hinputs] at hrun
  exact mapM_input_eq_ok h hrun

theorem grows_branches {bs : List (String × Expr)} (h : d.Sown n) (hroom : n + bs.length < 2 ^ 64)
    (hrun : bs.mapM (fun b => branch key b.1 b.2) d = .ok ids d') :
    GrowsBy (bs.map Prod.fst) d d' := by
  have hadds : Adds (bs.map Prod.fst) (bs.length * 1) (bs.mapM fun b => branch key b.1 b.2) :=
    .mapM fun b hb => adds_branch (List.mem_map_of_mem hb) key b.2
  have hgrows := (hadds n d (by rwa [Nat.mul_one]) h).2
  rwa [Pass.after, hrun] at hgrows

/-- The branches of a split, which has the schema that it reads. -/
theorem branches_eq_ok {schemas : Inputs}
    (hkey : Operator.outlines [o key] = Operator.outlines schemas) :
    ∀ {bs : List (String × Expr)} {d d' : Draft} {n : Nat} {ids : List NodeId},
    d.Sown n → n + bs.length < 2 ^ 64 → (bs.map Prod.fst).Nodup → d'.plan.Outlined o →
    bs.mapM (fun b => branch key b.1 b.2) d = .ok ids d' →
    ∃ others, bs.mapM (drawBranch schemas) = .ok others ∧
      List.Forall₂ (fun op k => d'.plan.Holds k op [key]) others ids ∧
      List.Forall₂ (fun op k => ∀ name : String, op.name = some name →
        d'.names[name]? = some k) others ids ∧
      d'.plan.graph.ids = d.plan.graph.ids ++ ids
  | [], d, d', n, ids, h, _, _, _, hrun => by
    obtain ⟨rfl, rfl⟩ : [] = ids ∧ d = d' := by simpa using hrun
    exact ⟨[], rfl, .nil, .nil, by simp⟩
  | (name, e) :: bs, d, d', n, ids, h, hroom, hnodup, ho, hrun => by
    rw [List.length_cons, Nat.add_comm bs.length, ← Nat.add_assoc] at hroom
    obtain ⟨hnew, hnodup⟩ := List.nodup_cons.mp hnodup
    rw [List.mapM_cons] at hrun
    obtain ⟨id, d₂, hbranch, hrun⟩ := Pass.bind_eq_ok.mp hrun
    obtain ⟨rest, t, hrest, hrun⟩ := Pass.bind_eq_ok.mp hrun
    obtain ⟨rfl, rfl⟩ : id :: rest = ids ∧ t = d' := by simpa using hrun
    have hadds := adds_branch (List.mem_singleton_self name) key e n d (by omega) h
    rw [Pass.after, hbranch] at hadds
    obtain ⟨h₂, hgrows₂⟩ := hadds
    have hgrows := grows_branches h₂ hroom hrest
    obtain ⟨f, d₁, hcompile, happend⟩ := Pass.bind_eq_ok.mp hbranch
    have hod := ho.of_retains h.plan.wellFormed (hgrows₂.plan.trans hgrows.plan).retains
    obtain ⟨hf, h₁, hdd₁⟩ := Answers.compile e [key] _ d f d₁ h hod hcompile
    obtain ⟨hlaid, hids⟩ := laid_of_append h₁ (by omega) (by simp [Operation.type])
      (by simp [Operation.type]) happend
    obtain ⟨others, hothers, hholds, hnames, hrestids⟩ :=
      branches_eq_ok hkey h₂ hroom hnodup ho hrest
    have hdraw : drawBranch schemas (name, e) =
        .ok { name := some name, operation := .splitOutput f } := by
      rw [← Expr.compiled_outlines, List.map_singleton, hkey, Expr.compiled_outlines] at hf
      exact Pass.except_bind_eq_ok.mpr ⟨f, hf, rfl⟩
    have hfirst := hlaid.first.retained hgrows.plan.retains
    refine ⟨_ :: others, ?_, .cons hfirst hholds, .cons ?_ hnames, ?_⟩
    · rw [List.mapM_cons, hdraw, Pass.except_ok_bind, hothers]
      rfl
    · intro name' hname'
      obtain rfl := Option.some.inj hname'
      -- the names of the other branches are different
      rcases hgrows.names name with hsame | ⟨hmem, -⟩
      · rw [hsame]
        obtain ⟨hname, -⟩ := List.forall₂_cons.mp hlaid.names
        exact hname name rfl
      · exact absurd hmem hnew
    · rw [hrestids, hids, hdd₁.plan.ids, List.append_assoc]
      rfl

/-- What was drawn was added behind the inputs of a statement. -/
def Drew (st : Statement) (o : NodeId → Option Schema) (d d' : Draft) : Prop :=
  ∃ x inputs key keys, d.Mean st.inputs inputs ∧ st.drawing (inputs.map o) = .ok x ∧
    d'.Laid x inputs key keys ∧ d'.plan.graph.ids = d.plan.graph.ids ++ key :: keys

section

variable {st : Statement} {name : String} {operation : Operation}

/-- A single named operator was added once everything was looked up. -/
theorem Drew.append (hmean : d.Mean st.inputs inputs)
    (hdraw : st.drawing (inputs.map o) = .ok { first := { name := some name, operation } })
    (hdd' : Untouched d d') (h' : d'.Sown n) (hroom : n + 1 < 2 ^ 64)
    (hstore : operation.type ≠ .store) (hload : operation.type = .load → inputs = [])
    (hrun : Draft.append name inputs operation d' = .ok key d'') : Drew st o d d'' := by
  obtain ⟨hlaid, hids⟩ := laid_of_append h' hroom hstore hload hrun
  exact ⟨_, inputs, key, [], hmean, hdraw, hlaid, hdd'.plan.ids ▸ hids⟩

/-- The schema of what was added can be derived. -/
theorem Drew.checked (hmean : d.Mean st.inputs inputs)
    (hdraw : st.drawing (inputs.map o) = .ok { first := { name := some name, operation } })
    (hdd' : Untouched d d') (h' : d'.Sown n) (hroom : n + 1 < 2 ^ 64)
    (hstore : operation.type ≠ .store) (hload : operation.type = .load → inputs = [])
    (hrun : (do Draft.checked (← Draft.append name inputs operation) : Edit NodeId) d' =
      .ok key d'') : Drew st o d d'' := by
  obtain ⟨key', t, happend, hchecked⟩ := Pass.bind_eq_ok.mp hrun
  obtain ⟨-, ht, -⟩ := append_eq_ok h' hroom hstore happend
  obtain ⟨-, htd⟩ := (reads_checked key').ok ht hchecked
  obtain ⟨x, ids, k, ks, hmean, hdraw, hlaid, hids⟩ :=
    Drew.append hmean hdraw hdd' h' hroom hstore hload happend
  exact ⟨x, ids, k, ks, hmean, hdraw, hlaid.untouched htd, htd.plan.ids ▸ hids⟩

end

/-! ## Statements, one by one -/

/-- A step that goes on with the operator that a name means. -/
theorem of_bind_input {name user : String} {b : β} {k : NodeId → Edit β} (h : d.Sown n)
    (hrun : (input name user >>= k) d = .ok b d') :
    ∃ z, d.names[name]? = some z ∧ k z d = .ok b d' := by
  obtain ⟨z, t, hinput, hrun⟩ := Pass.bind_eq_ok.mp hrun
  obtain ⟨hz, rfl⟩ := (input_eq_ok h).mp hinput
  exact ⟨z, hz, hrun⟩

/-- A step that goes on with what was read. -/
theorem of_bind_ofResult {r : Result γ} {b : β} {k : γ → Edit β}
    (hrun : (ofResult r >>= k) d = .ok b d') : ∃ c, r = .ok c ∧ k c d = .ok b d' := by
  obtain ⟨c, t, hread, hrun⟩ := Pass.bind_eq_ok.mp hrun
  obtain ⟨hc, rfl⟩ := ofResult_eq_ok.mp hread
  exact ⟨c, hc, hrun⟩

/-- A step that lists the one operator that it adds. -/
theorem of_listed {x : Edit NodeId} (hrun : (do return [← x] : Edit (List NodeId)) d = .ok ids d') :
    ∃ id, x d = .ok id d' := by
  obtain ⟨id, t, hx, hrun⟩ := Pass.bind_eq_ok.mp hrun
  obtain ⟨-, rfl⟩ : [id] = ids ∧ t = d' := by simpa using hrun
  exact ⟨id, hx⟩

namespace Drew

open Statement (map_of_expressions names_of_sources)

variable {name source path : String} {sources : List String}

section

variable (h : d.Sown n) (hroom : n + 1 < 2 ^ 64)

include h hroom

theorem load {columns : Option (List ColumnSpec)} {declared : Option Schema}
    (hread : ColumnSpec.nestedSchema columns = .ok declared)
    (hrun : Draft.load name path declared d = .ok key d') :
    Drew (.load name path columns) o d d' := by
  have hmean : d.Mean (Statement.load name path columns).inputs [] := .nil
  exact .append hmean (Pass.except_bind_eq_ok.mpr ⟨_, hread, rfl⟩) .refl h hroom
    (by simp [Operation.type]) (fun _ => rfl) hrun

theorem filter {predicate : Yaml.Value} {e : Expr} (ho : d.plan.Outlined o)
    (hread : Expr.ofYaml predicate = .ok e) (hrun : Draft.filter name source e d = .ok key d') :
    Drew (.filter name source predicate) o d d' := by
  obtain ⟨z, hz, hrun⟩ := of_bind_input h hrun
  obtain ⟨f, d₁, hcompile, happend⟩ := Pass.bind_eq_ok.mp hrun
  obtain ⟨hf, h₁, hdd₁⟩ := Answers.compile e [z] _ d f d₁ h ho hcompile
  exact .append (.cons hz .nil)
    (Pass.except_bind_eq_ok.mpr ⟨_, hread, Pass.except_bind_eq_ok.mpr ⟨_, hf, rfl⟩⟩) hdd₁ h₁ hroom
    (by simp [Operation.type]) (by simp [Operation.type]) happend

theorem forEach {items : List ItemSpec} {specs : List Draft.Item} (ho : d.plan.Outlined o)
    (hread : Statement.expressions ItemSpec.expr
      (fun i expr => { expr, flatten := i.flatten, name := i.name }) items = .ok specs)
    (hrun : Draft.forEach name source specs d = .ok key d') :
    Drew (.forEach name source items) o d d' := by
  obtain ⟨z, hz, hrun⟩ := of_bind_input h hrun
  obtain ⟨made, d₁, hcompile, happend⟩ := Pass.bind_eq_ok.mp hrun
  have hanswers := Answers.mapM (o := o) (n := n) (fun item : Draft.Item =>
    Answers.bind (.compile item.expr [z] (describe .forEach name)) fun f =>
      .pure (b := ({ formula := f, flatten := item.flatten, name := item.name } : Dataflow.Item)))
      specs
  obtain ⟨hmade, h₁, hdd₁⟩ := hanswers d made d₁ h ho hcompile
  exact .checked (.cons hz .nil)
    (Pass.except_bind_eq_ok.mpr ⟨_, hread, Pass.except_bind_eq_ok.mpr ⟨_, hmade, rfl⟩⟩) hdd₁ h₁
    hroom (by simp [Operation.type]) (by simp [Operation.type]) happend

theorem join {inputs : List JoinSpec} {type : JoinType} {specs : List (String × List Expr)}
    (ho : d.plan.Outlined o)
    (hread : (inputs.mapM fun i => do
      return (i.input, ← Statement.expressions id (fun _ e => e) i.keys)) = .ok specs)
    (hrun : Draft.join name specs type d = .ok key d') : Drew (.join name inputs type) o d d' := by
  obtain ⟨keys, t, hinputs, hrun⟩ := Pass.bind_eq_ok.mp hrun
  obtain ⟨hmean, rfl⟩ := mapM_sources_eq_ok (fun _ => rfl) h hinputs
  rw [names_of_sources hread] at hmean
  obtain ⟨formulas, d₁, hcompile, hrun⟩ := Pass.bind_eq_ok.mp hrun
  have hanswers := Answers.mapM (o := o) (n := n) (fun x : List Expr × Nat =>
    Answers.mapM (fun e : Expr => .compile (e.onInput x.2) keys (describe .join name)) x.1)
    (specs.map Prod.snd).zipIdx
  obtain ⟨hformulas, h₁, hdd₁⟩ := hanswers d formulas d₁ h ho hcompile
  dsimp only at hrun
  split at hrun
  · exact .checked hmean
      (Pass.except_bind_eq_ok.mpr ⟨_, hread, Pass.except_bind_eq_ok.mpr ⟨_, hformulas, rfl⟩⟩)
      hdd₁ h₁ hroom (by simp [Operation.type]) (by simp [Operation.type]) hrun
  · obtain ⟨_, _, hthrow, -⟩ := Pass.bind_eq_ok.mp hrun
    simp at hthrow

theorem cross (hrun : Draft.cross name sources d = .ok key d') :
    Drew (.cross name sources) o d d' := by
  obtain ⟨keys, t, hinputs, happend⟩ := Pass.bind_eq_ok.mp hrun
  obtain ⟨hmean, rfl⟩ := mapM_input_eq_ok h hinputs
  exact .checked hmean rfl .refl h hroom (by simp [Operation.type]) (by simp [Operation.type])
    happend

theorem union (hrun : Draft.union name sources d = .ok key d') :
    Drew (.union name sources) o d d' := by
  obtain ⟨keys, t, hinputs, happend⟩ := Pass.bind_eq_ok.mp hrun
  obtain ⟨hmean, rfl⟩ := mapM_input_eq_ok h hinputs
  exact .append hmean rfl .refl h hroom (by simp [Operation.type]) (by simp [Operation.type])
    happend

theorem distinct (hrun : Draft.distinct name source d = .ok key d') :
    Drew (.distinct name source) o d d' := by
  obtain ⟨z, hz, happend⟩ := of_bind_input h hrun
  exact .append (.cons hz .nil) rfl .refl h hroom (by simp [Operation.type])
    (by simp [Operation.type]) happend

theorem sort {keys : List SortSpec} {specs : List (Expr × Bool)} (ho : d.plan.Outlined o)
    (hread : Statement.expressions SortSpec.expr (fun k e => (e, !k.descending)) keys = .ok specs)
    (hrun : Draft.sort name source specs d = .ok key d') :
    Drew (.sort name source keys) o d d' := by
  obtain ⟨z, hz, hrun⟩ := of_bind_input h hrun
  obtain ⟨made, d₁, hcompile, happend⟩ := Pass.bind_eq_ok.mp hrun
  have hanswers := Answers.mapM (o := o) (n := n) (fun x : Expr × Bool =>
    Answers.bind (.compile x.1 [z] (describe .sort name)) fun f =>
      .pure (b := ({ formula := f, ascending := x.2 } : SortKey))) specs
  obtain ⟨hmade, h₁, hdd₁⟩ := hanswers d made d₁ h ho hcompile
  exact .append (.cons hz .nil)
    (Pass.except_bind_eq_ok.mpr ⟨_, hread, Pass.except_bind_eq_ok.mpr ⟨_, hmade, rfl⟩⟩) hdd₁ h₁
    hroom (by simp [Operation.type]) (by simp [Operation.type]) happend

theorem limit {count : Nat} (hrun : Draft.limit name source count d = .ok key d') :
    Drew (.limit name source count) o d d' := by
  obtain ⟨z, hz, happend⟩ := of_bind_input h hrun
  exact .append (.cons hz .nil) rfl .refl h hroom (by simp [Operation.type])
    (by simp [Operation.type]) happend

theorem store (hrun : Draft.store source path d = .ok key d') :
    Drew (.store source path) o d d' := by
  obtain ⟨z, hz, happend⟩ := of_bind_input h hrun
  obtain ⟨-, -, -, hlaid, hids⟩ := laid_of_insert h hroom (by simp [Operator.type, Operation.type])
    rfl happend
  exact ⟨_, [z], key, [], .cons hz .nil, rfl, hlaid, hids⟩

end

/-- The branches read the split, which has the schema of its input. -/
theorem split {branches : List BranchSpec} {specs : List (String × Expr)} (h : d.Sown n)
    (hroom : n + 1 + branches.length < 2 ^ 64) (hnodup : (branches.map BranchSpec.name).Nodup)
    (ho : d'.plan.Outlined o)
    (hread : Statement.expressions BranchSpec.condition (fun b e => (b.name, e)) branches =
      .ok specs)
    (hrun : Draft.split source specs d = .ok ids d') : Drew (.split source branches) o d d' := by
  obtain ⟨z, hz, hrun⟩ := of_bind_input h hrun
  obtain ⟨key, d₁, happend, hbranches⟩ := Pass.bind_eq_ok.mp hrun
  have hnames : specs.map Prod.fst = branches.map BranchSpec.name :=
    map_of_expressions (fun _ _ => rfl) hread
  have hroom : n + 1 + specs.length < 2 ^ 64 := by
    rwa [← List.length_map (f := Prod.fst), hnames, List.length_map]
  obtain ⟨h₁, -, -, hlaid, hids₁⟩ := laid_of_insert h (by omega)
    (by simp [Operator.type, Operation.type]) rfl happend
  have hfirst := hlaid.first.retained (grows_branches h₁ hroom hbranches).plan.retains
  have hkey : Operator.outlines [o key] = Operator.outlines [o z] := by
    have hsplit : (o z).map Schema.outline = o key := Except.ok.inj (ho.of_holds hfirst)
    rw [← hsplit, Operator.outlines_cons, Schema.map_outline_outline]
    rfl
  obtain ⟨others, hothers, hholds, hbound, hids⟩ :=
    branches_eq_ok hkey h₁ hroom (hnames ▸ hnodup) ho hbranches
  rw [hids₁, List.append_assoc] at hids
  refine ⟨_, [z], key, ids, .cons hz .nil, Pass.except_bind_eq_ok.mpr ⟨_, hread,
    Pass.except_bind_eq_ok.mpr ⟨_, hothers, rfl⟩⟩, ⟨hfirst, hholds, .cons ?_ hbound⟩, hids⟩
  simp

end Drew

end Draft

namespace Statement

open Draft

variable {d d' : Draft} {st : Statement} {ids : List NodeId}

/-- A statement that is taken adds what is drawn for the outlines of its inputs. -/
theorem apply_eq_ok (h : d.Sown n) (hroom : n + st.keys < 2 ^ 64) (hnodup : st.names.Nodup)
    (ho : d'.plan.Outlined o) (hrun : st.apply d = .ok ids d') : Drew st o d d' := by
  have hgrows := (st.adds_apply n d hroom h).2
  rw [Pass.after, hrun] at hgrows
  have hod := ho.of_retains h.plan.wellFormed hgrows.plan.retains
  cases st with
  | load name path columns =>
    obtain ⟨declared, hread, hrun⟩ := of_bind_ofResult hrun
    obtain ⟨id, hrun⟩ := of_listed hrun
    exact .load h hroom hread hrun
  | filter name input predicate =>
    obtain ⟨e, hread, hrun⟩ := of_bind_ofResult hrun
    obtain ⟨id, hrun⟩ := of_listed hrun
    exact .filter h hroom hod hread hrun
  | forEach name input items =>
    obtain ⟨specs, hread, hrun⟩ := of_bind_ofResult hrun
    obtain ⟨id, hrun⟩ := of_listed hrun
    exact .forEach h hroom hod hread hrun
  | join name inputs type =>
    obtain ⟨specs, hread, hrun⟩ := of_bind_ofResult hrun
    obtain ⟨id, hrun⟩ := of_listed hrun
    exact .join h hroom hod hread hrun
  | cross name inputs =>
    obtain ⟨id, hrun⟩ := of_listed hrun
    exact .cross h hroom hrun
  | union name inputs =>
    obtain ⟨id, hrun⟩ := of_listed hrun
    exact .union h hroom hrun
  | distinct name input =>
    obtain ⟨id, hrun⟩ := of_listed hrun
    exact .distinct h hroom hrun
  | split input branches =>
    obtain ⟨specs, hread, hrun⟩ := of_bind_ofResult hrun
    exact .split h (by rw [Nat.add_assoc]; exact hroom) hnodup ho hread hrun
  | sort name input keys =>
    obtain ⟨specs, hread, hrun⟩ := of_bind_ofResult hrun
    obtain ⟨id, hrun⟩ := of_listed hrun
    exact .sort h hroom hod hread hrun
  | limit name input count =>
    obtain ⟨id, hrun⟩ := of_listed hrun
    exact .limit h hroom hrun
  | store input path =>
    obtain ⟨id, hrun⟩ := of_listed hrun
    exact .store h hroom hrun

end Statement

end Dataflow

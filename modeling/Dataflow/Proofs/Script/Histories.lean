import Dataflow.Proofs.Script.Drawing

/-!
# Drafts that took statements

When all names are bound once, the operators of a draft fall into groups, one for each statement
that it took, and each group is what its statement drew (`Built`).
-/

namespace Dataflow

open Dataflow.Expr (Inputs)

variable {o : NodeId → Option Schema} {n : Nat} {op : Operator}

namespace Statement

/-- The expressions in a statement. -/
def sources : Statement → List Yaml.Value
  | .filter _ _ predicate => [predicate]
  | .forEach _ _ items => items.map ItemSpec.expr
  | .join _ inputs _ => inputs.flatMap JoinSpec.keys
  | .split _ branches => branches.map BranchSpec.condition
  | .sort _ _ keys => keys.map SortSpec.expr
  | _ => []

/-- There are keys for all parts of the expressions. -/
def hasKeys (st : Statement) : Bool :=
  st.sources.all fun y => (Expr.ofYaml y).toOption.all (·.size < 2 ^ 64)

theorem size_of_hasKeys {st : Statement} (h : st.hasKeys = true) {y : Yaml.Value}
    (hy : y ∈ st.sources) {e : Expr} (he : Expr.ofYaml y = .ok e) : e.size < 2 ^ 64 := by
  have hall := List.all_eq_true.mp h y hy
  rw [he] at hall
  exact of_decide_eq_true hall

/-- What a statement reads from or writes to. -/
def place : Statement → Option (OperatorType × String)
  | .load _ path _ => some (.load, path)
  | .store _ path => some (.store, path)
  | _ => none

end Statement

namespace Drawing

/-- All drawn operators. -/
def operators (x : Drawing) : List Operator := x.first :: x.others

/-- The names and the locations are those of the statement, and the formulas are sound. -/
structure Fits (x : Drawing) (st : Statement) : Prop where
  names : x.operators.filterMap Operator.name = st.names
  place : ∀ op ∈ x.operators, op.operation.location?.map (op.type, ·) = st.place
  sound : st.hasKeys = true → ∀ op ∈ x.operators, ∀ f ∈ op.operation.formulas, f.Sound

theorem Fits.single {name : Option String} {operation : Operation} {st : Statement}
    (hname : name.toList = st.names)
    (hplace : operation.location?.map (operation.type, ·) = st.place)
    (hsound : st.hasKeys = true → ∀ f ∈ operation.formulas, f.Sound) :
    Fits { first := { name, operation } } st where
  names := by
    rw [← hname]
    cases name <;> rfl
  place op hop := by
    obtain rfl := List.mem_singleton.mp hop
    exact hplace
  sound hkeys op hop := by
    obtain rfl := List.mem_singleton.mp hop
    exact hsound hkeys

end Drawing

namespace Statement

open Drawing

/-- Formulas that were made one by one of expressions in a statement. -/
theorem sound_of_expressions {α β γ : Type} {st : Statement} {source : α → Yaml.Value}
    {make : α → Expr → β} {items : List α} {made : List β} {drawn : List γ} {draw : β → Result γ}
    {formula : γ → Formula} (hkeys : st.hasKeys = true)
    (hitems : expressions source make items = .ok made) (hdrawn : made.mapM draw = .ok drawn)
    (hsources : ∀ item ∈ items, source item ∈ st.sources)
    (hformula : ∀ a e c, draw (make a e) = .ok c → e.size < 2 ^ 64 → (formula c).Sound) :
    ∀ f ∈ drawn.map formula, f.Sound := by
  intro f hf
  obtain ⟨c, hc, rfl⟩ := List.mem_map.mp hf
  obtain ⟨b, hb, hdraw⟩ := Pass.exists_of_mem_mapM hdrawn c hc
  obtain ⟨a, ha, hmake⟩ := Pass.exists_of_mem_mapM hitems b hb
  obtain ⟨e, he, hmake⟩ := Pass.except_bind_eq_ok.mp hmake
  obtain rfl := Except.ok.inj hmake
  exact hformula a e c hdraw (size_of_hasKeys hkeys (hsources a ha) he)

theorem drawBranch_eq_ok {schemas : Inputs} {b : String × Expr}
    (h : drawBranch schemas b = .ok op) : op.name = some b.1 ∧
      ∃ f user, b.2.compiled schemas user = .ok f ∧ op.operation = .splitOutput f := by
  obtain ⟨f, hf, h⟩ := Pass.except_bind_eq_ok.mp h
  obtain rfl := Except.ok.inj h
  exact ⟨rfl, f, _, hf, rfl⟩

/-- The formulas of a join were made of expressions in the keys of its inputs. -/
theorem sound_of_joinKeys {st : Statement} {schemas : Inputs} {user : String}
    {inputs : List JoinSpec} {sources : List (String × List Expr)} {keys : List (List Formula)}
    (hkeys : st.hasKeys = true) (hread : (inputs.mapM fun i => do
      return (i.input, ← expressions id (fun _ e => e) i.keys)) = .ok sources)
    (hmade : ((sources.map Prod.snd).zipIdx.mapM fun x => x.1.mapM fun e =>
      (e.onInput x.2).compiled schemas user) = .ok keys)
    (hsources : ∀ i ∈ inputs, ∀ y ∈ i.keys, y ∈ st.sources) :
    ∀ f ∈ keys.flatten, f.Sound := by
  intro f hf
  obtain ⟨fs, hfs, hf⟩ := List.mem_flatten.mp hf
  -- back from the formula to the expression, to the input that it belongs to, and to its source
  obtain ⟨k, hk, hfs⟩ := Pass.exists_of_mem_mapM hmade fs hfs
  obtain ⟨e, he, hf⟩ := Pass.exists_of_mem_mapM hfs f hf
  obtain ⟨source, hsource, hexprs⟩ := List.mem_map.mp (List.fst_mem_of_mem_zipIdx hk)
  obtain ⟨i, hi, hsource⟩ := Pass.exists_of_mem_mapM hread source hsource
  obtain ⟨exprs, hexpressions, hsource⟩ := Pass.except_bind_eq_ok.mp hsource
  obtain rfl := Except.ok.inj hsource
  obtain rfl : exprs = k.1 := hexprs
  obtain ⟨y, hy, hmake⟩ := Pass.exists_of_mem_mapM hexpressions e he
  obtain ⟨e', he', hmake⟩ := Pass.except_bind_eq_ok.mp hmake
  obtain rfl := Except.ok.inj hmake
  have hsize := size_of_hasKeys hkeys (hsources i hi y hy) he'
  exact Formula.sound_compiled (by rwa [Expr.size_onInput]) hf

theorem fits_split {input : String} {branches : List BranchSpec} {schemas : Inputs}
    {specs : List (String × Expr)} {made : List Operator}
    (hspecs : expressions BranchSpec.condition (fun b e => (b.name, e)) branches = .ok specs)
    (hmade : specs.mapM (drawBranch schemas) = .ok made) :
    Fits { first := { operation := .split }, others := made } (.split input branches) := by
  have hnames : made.map Operator.name = specs.map (some ∘ Prod.fst) :=
    Pass.map_of_mapM (fun b op hop => by rw [(drawBranch_eq_ok hop).1]; rfl) hmade
  have hbranches : specs.map Prod.fst = branches.map BranchSpec.name :=
    map_of_expressions (fun _ _ => rfl) hspecs
  refine ⟨?_, List.forall_mem_cons.mpr ⟨rfl, fun op hop => ?_⟩, fun hkeys =>
    List.forall_mem_cons.mpr ⟨fun f hf => ?_, fun op hop f hf => ?_⟩⟩
  · have hmap : made.filterMap Operator.name = (made.map Operator.name).filterMap id := by
      rw [List.filterMap_map]
      rfl
    rw [operators, List.filterMap_cons_none rfl, hmap, hnames, names, ← hbranches,
      List.filterMap_map]
    exact congrFun List.filterMap_eq_map specs
  · obtain ⟨b, -, hdraw⟩ := Pass.exists_of_mem_mapM hmade op hop
    obtain ⟨-, f, -, -, ho⟩ := drawBranch_eq_ok hdraw
    rw [ho]
    rfl
  · simp [Operation.formulas] at hf
  · obtain ⟨b, hb, hdraw⟩ := Pass.exists_of_mem_mapM hmade op hop
    obtain ⟨-, f', _, hf', ho⟩ := drawBranch_eq_ok hdraw
    rw [ho] at hf
    obtain rfl := List.mem_singleton.mp hf
    obtain ⟨branch, hbranch, hread⟩ := Pass.exists_of_mem_mapM hspecs b hb
    obtain ⟨e, he, hread⟩ := Pass.except_bind_eq_ok.mp hread
    obtain rfl := Except.ok.inj hread
    exact Formula.sound_compiled (size_of_hasKeys hkeys (List.mem_map_of_mem hbranch) he) hf'

theorem fits_drawing {st : Statement} {schemas : Inputs} {x : Drawing}
    (h : st.drawing schemas = .ok x) : x.Fits st := by
  cases st with
  | load name path columns =>
    obtain ⟨declared, -, h⟩ := Pass.except_bind_eq_ok.mp h
    obtain rfl := Except.ok.inj h
    exact .single rfl rfl fun _ f hf => by simp [Operation.formulas] at hf
  | filter name input predicate =>
    obtain ⟨e, he, h⟩ := Pass.except_bind_eq_ok.mp h
    obtain ⟨p, hp, h⟩ := Pass.except_bind_eq_ok.mp h
    obtain rfl := Except.ok.inj h
    refine .single rfl rfl fun hkeys f hf => ?_
    obtain rfl := List.mem_singleton.mp hf
    exact Formula.sound_compiled (size_of_hasKeys hkeys (List.mem_singleton_self _) he) hp
  | forEach name input items =>
    obtain ⟨specs, hspecs, h⟩ := Pass.except_bind_eq_ok.mp h
    obtain ⟨made, hmade, h⟩ := Pass.except_bind_eq_ok.mp h
    obtain rfl := Except.ok.inj h
    refine .single rfl rfl fun hkeys => ?_
    refine sound_of_expressions hkeys hspecs hmade (fun _ => List.mem_map_of_mem) ?_
    intro a e c hc hsize
    obtain ⟨f, hf, hc⟩ := Pass.except_bind_eq_ok.mp hc
    obtain rfl := Except.ok.inj hc
    exact Formula.sound_compiled hsize hf
  | join name inputs type =>
    obtain ⟨specs, hspecs, h⟩ := Pass.except_bind_eq_ok.mp h
    obtain ⟨made, hmade, h⟩ := Pass.except_bind_eq_ok.mp h
    obtain rfl := Except.ok.inj h
    refine .single rfl rfl fun hkeys => ?_
    exact sound_of_joinKeys hkeys hspecs hmade fun i hi y hy => List.mem_flatMap.mpr ⟨i, hi, hy⟩
  | cross name inputs =>
    obtain rfl := Except.ok.inj h
    exact .single rfl rfl fun _ f hf => by simp [Operation.formulas] at hf
  | union name inputs =>
    obtain rfl := Except.ok.inj h
    exact .single rfl rfl fun _ f hf => by simp [Operation.formulas] at hf
  | distinct name input =>
    obtain rfl := Except.ok.inj h
    exact .single rfl rfl fun _ f hf => by simp [Operation.formulas] at hf
  | split input branches =>
    obtain ⟨specs, hspecs, h⟩ := Pass.except_bind_eq_ok.mp h
    obtain ⟨made, hmade, h⟩ := Pass.except_bind_eq_ok.mp h
    obtain rfl := Except.ok.inj h
    exact fits_split hspecs hmade
  | sort name input keys =>
    obtain ⟨specs, hspecs, h⟩ := Pass.except_bind_eq_ok.mp h
    obtain ⟨made, hmade, h⟩ := Pass.except_bind_eq_ok.mp h
    obtain rfl := Except.ok.inj h
    refine .single rfl rfl fun hkeys => ?_
    refine sound_of_expressions hkeys hspecs hmade (fun _ => List.mem_map_of_mem) ?_
    intro a e c hc hsize
    obtain ⟨f, hf, hc⟩ := Pass.except_bind_eq_ok.mp hc
    obtain rfl := Except.ok.inj hc
    exact Formula.sound_compiled hsize hf
  | limit name input count =>
    obtain rfl := Except.ok.inj h
    exact .single rfl rfl fun _ f hf => by simp [Operation.formulas] at hf
  | store input path =>
    obtain rfl := Except.ok.inj h
    exact .single rfl rfl fun _ f hf => by simp [Operation.formulas] at hf

end Statement

namespace Draft

variable {d d' : Draft} {st : Statement} {l : List Statement} {key : NodeId}
  {keys ids : List NodeId}

/-- The draft has what the statement drew, under these keys. -/
def Drawn (o : NodeId → Option Schema) (d : Draft) (st : Statement) (key : NodeId)
    (keys : List NodeId) : Prop :=
  ∃ x inputs, d.Mean st.inputs inputs ∧ st.drawing (inputs.map o) = .ok x ∧ d.Laid x inputs key keys

theorem Mean.mono {names : List String} (h : d.Mean names ids)
    (hkept : ∀ (name : String) (id : NodeId), d.names[name]? = some id →
      d'.names[name]? = some id) :
    d'.Mean names ids :=
  h.imp fun _ _ hid => hkept _ _ hid

theorem Drawn.retained (h : d.Drawn o st key keys) (hd : Plan.Retains d.plan d'.plan)
    (hkept : ∀ (name : String) (id : NodeId), d.names[name]? = some id →
      d'.names[name]? = some id) :
    d'.Drawn o st key keys := by
  obtain ⟨x, inputs, hmean, hdraw, hlaid⟩ := h
  exact ⟨x, inputs, hmean.mono hkept, hdraw, hlaid.retained hd hkept⟩

/-- The draft consists of what the statements drew. -/
structure Built (o : NodeId → Option Schema) (l : List Statement) (d : Draft) : Prop where
  drawn : ∃ groups : List (NodeId × List NodeId),
    List.Forall₂ (fun st g => d.Drawn o st g.1 g.2) l groups ∧
      d.plan.graph.ids = groups.flatMap fun g => g.1 :: g.2
  names : ∀ (name : String) (id : NodeId), d.names[name]? = some id →
    name ∈ l.flatMap Statement.names

namespace Built

theorem empty : Built o [] {} where
  drawn := ⟨[], .nil, rfl⟩
  names name id hid := by simp at hid

/-- What changes a draft neither adds to it nor renames anything. -/
theorem retained (hb : Built o l d) (hd : Plan.Retains d.plan d'.plan)
    (hids : d'.plan.graph.ids = d.plan.graph.ids) (hnames : d'.names = d.names) : Built o l d' where
  drawn := by
    obtain ⟨groups, hdrawn, hgroups⟩ := hb.drawn
    exact ⟨groups, hdrawn.imp fun _ _ hg => hg.retained hd fun _ _ hid => by rwa [hnames],
      hids.trans hgroups⟩
  names name id hid := hb.names name id (hnames ▸ hid)

/-- Another statement was taken, which binds none of the names again. -/
theorem apply (hb : Built o l d) (h : d.Sown n) (hroom : n + st.keys < 2 ^ 64)
    (hnodup : ((l ++ [st]).flatMap Statement.names).Nodup) (ho : d'.plan.Outlined o)
    (hrun : st.apply d = .ok ids d') : Built o (l ++ [st]) d' := by
  rw [List.flatMap_append, List.flatMap_singleton] at hnodup
  obtain ⟨-, hnodup, hdisjoint⟩ := List.nodup_append'.mp hnodup
  obtain ⟨groups, hdrawn, hids⟩ := hb.drawn
  have hgrows := (st.adds_apply n d hroom h).2
  rw [Pass.after, hrun] at hgrows
  have hkept : ∀ (name : String) (id : NodeId), d.names[name]? = some id →
      d'.names[name]? = some id := fun name id hid => by
    rcases hgrows.names name with hsame | ⟨hname, -⟩
    · rw [hsame, hid]
    · exact absurd hname (hdisjoint (hb.names name id hid))
  obtain ⟨x, inputs, key, keys, hmean, hdraw, hlaid, hids'⟩ :=
    st.apply_eq_ok h hroom hnodup ho hrun
  refine ⟨⟨groups ++ [(key, keys)], ?_, ?_⟩, fun name id hid => ?_⟩
  · refine List.rel_append (hdrawn.imp fun _ _ hg => hg.retained hgrows.plan.retains hkept) ?_
    exact .cons ⟨x, inputs, hmean.mono hkept, hdraw, hlaid⟩ .nil
  · rw [hids', hids, List.flatMap_append, List.flatMap_singleton]
  · rw [List.flatMap_append, List.flatMap_singleton, List.mem_append]
    rcases hgrows.names name with hsame | ⟨hname, -⟩
    · exact .inl (hb.names name id (hsame ▸ hid))
    · exact .inr hname

/-- Each statement drew a part of the draft. -/
theorem exists_drawn (hb : Built o l d) (hst : st ∈ l) : ∃ key keys, d.Drawn o st key keys := by
  obtain ⟨groups, hdrawn, -⟩ := hb.drawn
  obtain ⟨i, hi, rfl⟩ := List.getElem_of_mem hst
  exact ⟨_, _, hdrawn.get hi (hdrawn.length_eq ▸ hi)⟩

/-- Each operator was drawn by a statement. -/
theorem exists_statement (hb : Built o l d) (hwf : d.plan.graph.WellFormed) {z : NodeId}
    (hz : d.plan.graph.contains z = true) :
    ∃ st ∈ l, ∃ key keys, d.Drawn o st key keys ∧ z ∈ key :: keys := by
  obtain ⟨groups, hdrawn, hids⟩ := hb.drawn
  obtain ⟨g, hg, hz⟩ := List.mem_flatMap.mp (hids ▸ (hwf.mem_ids z).mpr hz)
  obtain ⟨i, hi, rfl⟩ := List.getElem_of_mem hg
  have hi' : i < l.length := hdrawn.length_eq ▸ hi
  exact ⟨l[i], List.getElem_mem hi', _, _, hdrawn.get hi' hi, hz⟩

end Built

/-! ## Operators of a draft -/

/-- What a statement drew is there. -/
theorem Laid.holds {x : Drawing} {inputs : List NodeId} (h : d.Laid x inputs key keys) :
    List.Forall₂ (fun op z => ∃ ids, d.plan.Holds z op ids) x.operators (key :: keys) :=
  .cons ⟨inputs, h.first⟩ (h.others.imp fun _ _ hz => ⟨[key], hz⟩)

theorem Laid.exists_operator {x : Drawing} {inputs : List NodeId} (h : d.Laid x inputs key keys)
    {z : NodeId} (hz : z ∈ key :: keys) : ∃ op ∈ x.operators, ∃ ids, d.plan.Holds z op ids := by
  obtain ⟨i, hi, rfl⟩ := List.getElem_of_mem hz
  have hi' : i < x.operators.length := h.holds.length_eq ▸ hi
  exact ⟨x.operators[i], List.getElem_mem hi', h.holds.get hi' hi⟩

/-- An operator is called what the statement calls it. -/
theorem Drawn.exists_named {name : String} (h : d.Drawn o st key keys) (hname : name ∈ st.names) :
    ∃ z ∈ key :: keys, d.names[name]? = some z ∧ d.plan.nameOf z = some name := by
  obtain ⟨x, inputs, -, hdraw, hlaid⟩ := h
  rw [← (Statement.fits_drawing hdraw).names] at hname
  obtain ⟨op, hop, hname⟩ := List.mem_filterMap.mp hname
  obtain ⟨i, hi, rfl⟩ := List.getElem_of_mem hop
  have hi' : i < (key :: keys).length := hlaid.holds.length_eq ▸ hi
  obtain ⟨ids, hholds⟩ := hlaid.holds.get hi hi'
  exact ⟨(key :: keys)[i], List.getElem_mem hi', hlaid.names.get hi hi' name hname,
    hholds.nameOf.trans hname⟩

/-- What an operator is called means that operator. -/
theorem Drawn.named {name : String} {z : NodeId} (h : d.Drawn o st key keys) (hz : z ∈ key :: keys)
    (hname : d.plan.nameOf z = some name) : d.names[name]? = some z := by
  obtain ⟨x, inputs, -, -, hlaid⟩ := h
  obtain ⟨i, hi, rfl⟩ := List.getElem_of_mem hz
  have hi' : i < x.operators.length := hlaid.holds.length_eq ▸ hi
  obtain ⟨ids, hholds⟩ := hlaid.holds.get hi' hi
  exact hlaid.names.get hi' hi name (hholds.nameOf.symm.trans hname)

theorem Drawn.hasPlace {z : NodeId} {t : OperatorType} {location : String}
    (h : d.Drawn o st key keys) (hz : z ∈ key :: keys) :
    d.plan.HasPlace t z location ↔ st.place = some (t, location) := by
  obtain ⟨x, inputs, -, hdraw, hlaid⟩ := h
  obtain ⟨op, hop, ids, hholds⟩ := hlaid.exists_operator hz
  rw [hholds.hasPlace, (Statement.fits_drawing hdraw).place op hop]

namespace Built

/-- Locations are read and written where statements say so. -/
theorem hasPlace (hb : Built o l d) (hwf : d.plan.graph.WellFormed) {t : OperatorType}
    {location : String} :
    (∃ z, d.plan.HasPlace t z location) ↔ ∃ st ∈ l, st.place = some (t, location) := by
  constructor
  · rintro ⟨z, hz⟩
    obtain ⟨st, hst, key, keys, hdrawn, hmem⟩ := hb.exists_statement hwf hz.contains
    exact ⟨st, hst, (hdrawn.hasPlace hmem).mp hz⟩
  · rintro ⟨st, hst, hplace⟩
    obtain ⟨key, keys, hdrawn⟩ := hb.exists_drawn hst
    exact ⟨key, (hdrawn.hasPlace List.mem_cons_self).mpr hplace⟩

theorem formulasSound (hb : Built o l d) (hwf : d.plan.graph.WellFormed)
    (hkeys : ∀ st ∈ l, st.hasKeys = true) :
    d.plan.FormulasSound := by
  intro z op hop f hf
  obtain ⟨st, hst, key, keys, ⟨x, inputs, -, hdraw, hlaid⟩, hz⟩ :=
    hb.exists_statement hwf (Plan.contains_of_operator? hop)
  obtain ⟨op', hop', ids, hholds⟩ := hlaid.exists_operator hz
  refine (Statement.fits_drawing hdraw).sound (hkeys st hst) op' hop' f ?_
  rwa [← hholds.formulas hop]

end Built

end Draft

namespace Session

open Draft (Built GrowsBy)

variable {s s' : Session} {st : Statement} {l taken : List Statement} {ids : List NodeId}

/-- Takes statements, all of which have to succeed. -/
def registerAll (l : List Statement) : Edit Unit := l.forM fun st => discard (register st)

/-- The session brings locations into the same canonical form. -/
def SamePlace (s s' : Session) : Prop := s'.resolver = s.resolver ∧ s'.directory = s.directory

theorem SamePlace.canonical (h : SamePlace s s') (st : Statement) :
    s'.canonical st = s.canonical st := by
  unfold Session.canonical
  rw [h.1, h.2]

theorem register_eq_ok (hrun : register st s = .ok ids s') : SamePlace s s' ∧
    ∃ st', s.canonical st = .ok st' ∧ st'.apply s.draft = .ok ids s'.draft := by
  rw [register_eq] at hrun
  cases hst : s.canonical st with
  | error e => simp [hst] at hrun
  | ok st' =>
    rw [hst] at hrun
    cases happly : st'.apply s.draft with
    | error e d => simp [happly, registered] at hrun
    | ok ids' d =>
      obtain ⟨rfl, rfl⟩ : ids' = ids ∧ _ = s' := by simpa [happly, registered] using hrun
      exact ⟨⟨rfl, rfl⟩, st', rfl, happly⟩

theorem registerAll_cons (hrun : registerAll (st :: l) s = .ok () s') :
    ∃ ids t, register st s = .ok ids t ∧ registerAll l t = .ok () s' := by
  obtain ⟨_, t, hst, hrun⟩ := Pass.bind_eq_ok.mp hrun
  obtain ⟨ids, hst⟩ := Pass.discard_eq_ok.mp hst
  exact ⟨ids, t, hst, hrun⟩

theorem registerAll_grows : ∀ {l : List Statement} {s s' : Session} {n : Nat}, s.draft.Sown n →
    n + (l.map Statement.keys).sum < 2 ^ 64 → registerAll l s = .ok () s' →
      s'.draft.Sown (n + (l.map Statement.keys).sum) ∧ Plan.Grows s.plan s'.plan
  | [], s, s', n, h, _, hrun => by
    obtain rfl : s = s' := by simpa [registerAll] using hrun
    exact ⟨h, .of_alike .refl⟩
  | st :: l, s, s', n, h, hroom, hrun => by
    rw [List.map_cons, List.sum_cons, ← Nat.add_assoc] at hroom ⊢
    obtain ⟨ids, t, hst, hrun⟩ := registerAll_cons hrun
    have hkeeps := register_keeps h (Nat.lt_of_le_of_lt (Nat.le_add_right _ _) hroom)
    rw [Pass.after, hst] at hkeeps
    obtain ⟨h', hgrows⟩ := registerAll_grows hkeeps.1 hroom hrun
    exact ⟨h', hkeeps.2.plan.trans hgrows⟩

/-- What a session makes of statements is drawn by their canonical forms. -/
theorem registerAll_built : ∀ {l taken : List Statement} {s s' : Session} {n : Nat},
    Built o taken s.draft → s.draft.Sown n → n + (l.map Statement.keys).sum < 2 ^ 64 →
    ((taken ++ l).flatMap Statement.names).Nodup → s'.plan.Outlined o →
    registerAll l s = .ok () s' →
    ∃ l', List.Forall₂ (fun st st' => s.canonical st = .ok st') l l' ∧
      Built o (taken ++ l') s'.draft
  | [], taken, s, s', n, hb, h, _, _, _, hrun => by
    obtain rfl : s = s' := by simpa [registerAll] using hrun
    exact ⟨[], .nil, by rwa [List.append_nil]⟩
  | st :: l, taken, s, s', n, hb, h, hroom, hnodup, ho, hrun => by
    rw [List.map_cons, List.sum_cons, ← Nat.add_assoc] at hroom
    obtain ⟨ids, t, hst, hrun⟩ := registerAll_cons hrun
    have hroom' := Nat.lt_of_le_of_lt (Nat.le_add_right _ _) hroom
    have hkeeps := register_keeps h hroom'
    rw [Pass.after, hst] at hkeeps
    have hgrows := (registerAll_grows hkeeps.1 hroom hrun).2
    obtain ⟨hplace, st', hcanonical, happly⟩ := register_eq_ok hst
    obtain ⟨hnames, hkeys⟩ := canonical_same hcanonical
    have hnodup' : (((taken ++ [st']) ++ l).flatMap Statement.names).Nodup := by
      simpa [hnames] using hnodup
    have hb' : Built o (taken ++ [st']) t.draft := by
      have hot := ho.of_retains hkeeps.1.plan.wellFormed hgrows.retains
      refine hb.apply h (hkeys ▸ hroom') ?_ hot happly
      rw [List.flatMap_append] at hnodup'
      exact (List.nodup_append'.mp hnodup').1
    obtain ⟨l', hl', hbuilt⟩ := registerAll_built hb' hkeeps.1 hroom hnodup' ho hrun
    refine ⟨st' :: l', .cons hcanonical (hl'.imp fun _ _ hc => ?_), by simpa using hbuilt⟩
    rwa [hplace.canonical] at hc

end Session

end Dataflow

import Dataflow.Proofs.Graph.Calls
import Dataflow.Proofs.Plan.Checked
import Dataflow.Proofs.Plan.Unnamed

/-!
# Schemas that come back

An edit makes schemas be forgotten, and a request may derive them again from inputs that have other
names by now. A plan `Repeats` another one if all that is derived in it agrees, names aside, with
what was derived in the other one, and if that will stay so: an operator whose schema was derived
there gets it from inputs whose schemas were derived there, too. This is kept by requests
(`Repeats.keptByDeriving`) and by edits whose operators follow those before (`Repeats.follows`).
-/

namespace Dataflow

open Dataflow.Expr (Inputs)

/-! ## One operator -/

namespace Operator

variable {op op' op'' : Operator} {inputs : Inputs} {t : Option Schema} {f : Formula}

/-- From inputs that without their names are these ones the operator gets this schema, names aside,
and takes no identities for it. -/
def Yields (op : Operator) (inputs : Inputs) (t : Option Schema) : Prop :=
  ∀ (inputs' : Inputs) (names : List (Option String)) (supply supply' : UidSupply)
    (s : Option Schema) (o : Operation), names.length = inputs'.length → unnamed inputs' = inputs →
    op.deriveSchema inputs' names supply = .ok (s, o, supply') →
      s.map Schema.unnamed = t ∧ o = op.operation

theorem deriveSchema_filter (h : op.operation = .filter f) (inputs : Inputs)
    (names : List (Option String)) (supply : UidSupply) : op.deriveSchema inputs names supply =
      .ok (Expr.schemaOf? inputs 0, op.operation, supply) := by
  rw [deriveSchema, h]

theorem deriveSchema_load {l : Load} (h : op.operation = .load l) (inputs : Inputs)
    (names : List (Option String)) (supply : UidSupply) :
    op.deriveSchema inputs names supply = .ok (l.declared, op.operation, supply) := by
  rw [deriveSchema, h]

/-- A filter gets the schema of its input. -/
theorem yields_filter_iff (h : op.operation = .filter f) (hinputs : unnamed inputs = inputs) :
    op.Yields inputs t ↔ t = Expr.schemaOf? inputs 0 := by
  constructor
  · intro hy
    have hlen : (inputs.map fun _ => (none : Option String)).length = inputs.length :=
      List.length_map _
    obtain ⟨hs, -⟩ := hy inputs _ {} {} _ _ hlen hinputs (deriveSchema_filter h _ _ _)
    rw [← hs, ← schemaOf?_unnamed, hinputs]
  · rintro rfl inputs' names supply supply' s o - rfl hrun
    rw [deriveSchema_filter h] at hrun
    obtain ⟨rfl, rfl, -⟩ : _ ∧ _ ∧ _ := by simpa using hrun
    exact ⟨(schemaOf?_unnamed inputs' 0).symm, rfl⟩

/-- In place of one operator there is another one that yields the same, and whose schema is the
derived one or forgotten. -/
structure Follows (op op' : Operator) : Prop where
  memo : op'.memo = none ∨ op'.memo = op.memo
  yields : ∀ inputs t, op.Yields inputs t → op'.Yields inputs t

/-- An operator yields what another one does if it derives nothing else. -/
theorem Yields.of_derives (h : op.Yields inputs t)
    (hderive : ∀ inputs names supply supply' s o,
      op'.deriveSchema inputs names supply = .ok (s, o, supply') →
      ∃ o₁ supply₁, op.deriveSchema inputs names supply = .ok (s, o₁, supply₁) ∧
        (o₁ = op.operation → o = op'.operation)) : op'.Yields inputs t := by
  intro inputs' names supply supply' s o hlen hinputs hrun
  obtain ⟨o₁, supply₁, hrun₁, ho⟩ := hderive inputs' names supply supply' s o hrun
  obtain ⟨hs, ho₁⟩ := h inputs' names supply supply₁ s o₁ hlen hinputs hrun₁
  exact ⟨hs, ho ho₁⟩

theorem Yields.withMemo (h : op.Yields inputs t) (memo : Option (Option Schema)) :
    Yields { op with memo } inputs t :=
  h.of_derives fun _ _ _ supply' _ o hrun => ⟨o, supply', hrun, fun ho => ho⟩

namespace Follows

theorem refl : op.Follows op := ⟨.inr rfl, fun _ _ h => h⟩

theorem trans (h : op.Follows op') (h' : op'.Follows op'') : op.Follows op'' := by
  refine ⟨?_, fun inputs t hy => h'.yields inputs t (h.yields inputs t hy)⟩
  rcases h'.memo with hmemo | hmemo
  · exact .inl hmemo
  · exact h.memo.imp hmemo.trans hmemo.trans

theorem forget : op.Follows op.forget := ⟨.inl rfl, fun _ _ h => h.withMemo none⟩

/-- Filters all yield the same. -/
theorem filter {g : Formula} (h : op.operation = .filter f) (h' : op'.operation = .filter g)
    (hmemo : op'.memo = none) : op.Follows op' := by
  refine ⟨.inl hmemo, fun inputs t hy => hy.of_derives ?_⟩
  intro inputs names supply supply' s o hrun
  rw [deriveSchema_filter h'] at hrun
  obtain ⟨rfl, rfl, -⟩ : _ ∧ _ ∧ _ := by simpa using hrun
  exact ⟨_, _, deriveSchema_filter h inputs names supply, fun _ => rfl⟩

/-- Loads yield what they declare. -/
theorem load {l l' : Load} (h : op.operation = .load l) (h' : op'.operation = .load l')
    (hdeclared : l'.declared = l.declared) (hmemo : op'.memo = none) : op.Follows op' := by
  refine ⟨.inl hmemo, fun inputs t hy => hy.of_derives ?_⟩
  intro inputs names supply supply' s o hrun
  rw [deriveSchema_load h', hdeclared] at hrun
  obtain ⟨rfl, rfl, -⟩ : _ ∧ _ ∧ _ := by simpa using hrun
  exact ⟨_, _, deriveSchema_load h inputs names supply, fun _ => rfl⟩

end Follows

end Operator

namespace Plan

open Dataflow.Graph

variable {p q r : Plan} {id x y z : NodeId} {op : Operator} {t : Option Schema} {f : Formula}

/-! ## What was derived -/

/-- The derived schema of an operator without its names. -/
def bareOf (p : Plan) (id : NodeId) : Option (Option Schema) :=
  (p.memoOf id).map (·.map Schema.unnamed)

theorem map_unnamed_join_bareOf : (p.bareOf id).join.map Schema.unnamed = (p.bareOf id).join := by
  unfold bareOf
  cases p.memoOf id with
  | none => rfl
  | some s => exact Schema.map_unnamed_unnamed s

theorem bareOf_eq (h : p.memoOf id = some t) : p.bareOf id = some (t.map Schema.unnamed) := by
  rw [bareOf, h]
  rfl

/-- What the inputs of an operator of `q` had as schemas in `p`. -/
def bareInputs (p q : Plan) (id : NodeId) : Inputs :=
  (q.dataInputs id).map fun y => (p.bareOf y).join

theorem unnamed_bareInputs : Operator.unnamed (bareInputs p q id) = bareInputs p q id := by
  rw [Operator.unnamed, bareInputs, List.map_map]
  exact List.map_congr_left fun _ _ => map_unnamed_join_bareOf

/-- An operator of `q` goes on to have this schema, which was derived in `p`. -/
structure RepeatsAt (p q : Plan) (id : NodeId) (op : Operator) (t : Option Schema) : Prop where
  inputs : ∀ y ∈ q.dataInputs id, (p.bareOf y).isSome
  yields : op.Yields (bareInputs p q id) t
  memo : ∀ s, op.memo = some s → s.map Schema.unnamed = t

/-- Whatever had a schema in `p` has the same one in `q`, names aside, as soon as it has any. -/
def Repeats (p q : Plan) : Prop :=
  ∀ id op t, q.operator? id = some op → p.bareOf id = some t → RepeatsAt p q id op t

/-- The derived schemas of a coherent plan come back. -/
theorem Coherent.repeats (hp : p.Coherent) : Repeats p p := by
  intro id op t hop ht
  obtain ⟨s, hs, rfl⟩ := Option.map_eq_some_iff.mp ht
  have hmemo : op.memo = some s := by simpa [memoOf, hop] using hs
  obtain ⟨hall, hderive⟩ := hp id op s hop hmemo
  refine ⟨fun y hy => by simpa [bareOf] using hall y hy, ?_, fun s' hs' => ?_⟩
  · intro inputs names supply supply' s' o hlen hinputs hrun
    refine Operator.deriveSchema_unnamed (by simp) hlen ?_ (hderive supply) hrun
    rw [hinputs, Operator.unnamed, List.map_map, bareInputs]
    refine List.map_congr_left fun y _ => ?_
    rw [bareOf, Function.comp_apply]
    cases p.memoOf y <;> rfl
  · rw [hmemo] at hs'
    rw [Option.some.inj hs']

namespace Repeats

/-- Where both plans have a schema, it is the same one, names aside. -/
theorem memo {s : Option Schema} (h : Repeats p q) (ht : p.bareOf id = some t)
    (hs : q.memoOf id = some s) : s.map Schema.unnamed = t := by
  obtain ⟨op, hop, hmemo⟩ := Option.bind_eq_some_iff.mp hs
  exact (h id op t hop ht).memo s hmemo

/-- What a filter had as its schema is what its input had. -/
theorem filter (h : Repeats p q) (hop : q.operator? z = some op) (ho : op.operation = .filter f)
    (hpre : q.graph.predecessors z = [y]) (ht : p.bareOf z = some t) : p.bareOf y = some t := by
  obtain ⟨hin, hyields, -⟩ := h z op t hop ht
  have hins : q.dataInputs z = [y] := by
    rw [dataInputs_of_operator? hop, hpre]
    simp [Operator.type, ho, Operation.type]
  have hschema := (Operator.yields_filter_iff ho unnamed_bareInputs).mp hyields
  obtain ⟨s, hs⟩ := Option.isSome_iff_exists.mp (hin y (by simp [hins]))
  rw [bareInputs, hins] at hschema
  simp only [List.map_cons, List.map_nil, hs, Expr.schemaOf?, List.getElem?_cons_zero,
    Option.join_some] at hschema
  rw [hs, hschema]

/-! ## Requests -/

/-- The inputs of an operator that has to have a schema are derived from what they were before. -/
theorem unnamed_inputs (h : Repeats p q) (hin : ∀ y ∈ q.dataInputs id, (p.bareOf y).isSome)
    (hall : ∀ y ∈ q.dataInputs id, (q.memoOf y).isSome) :
    Operator.unnamed ((q.dataInputs id).map fun y => (q.memoOf y).join) = bareInputs p q id := by
  rw [Operator.unnamed, List.map_map, bareInputs]
  refine List.map_congr_left fun y hy => ?_
  obtain ⟨t, ht⟩ := Option.isSome_iff_exists.mp (hin y hy)
  obtain ⟨s, hs⟩ := Option.isSome_iff_exists.mp (hall y hy)
  rw [Function.comp_apply, hs, ht]
  exact h.memo ht hs

theorem keptByDeriving : KeptByDeriving (Repeats p) := by
  refine .of_ok fun q r id h hrun => ?_
  have halike := Alike.deriveOne hrun
  obtain ⟨op, s, o, supply, hop, hall, hderive, rfl⟩ := deriveOne_eq_ok.mp hrun
  intro z op' t hop' ht
  rw [operator?_withSchema] at hop'
  have hinputs : bareInputs p (q.withSchema id s o supply) z = bareInputs p q z := by
    rw [bareInputs, halike.dataInputs, bareInputs]
  by_cases hz : z = id
  · subst hz
    obtain ⟨hin, hyields, -⟩ := h z op t hop ht
    obtain ⟨hs, rfl⟩ := hyields _ _ _ _ _ _ (by simp) (h.unnamed_inputs hin hall) hderive
    obtain rfl : { op with memo := some s } = op' := by simpa [hop] using hop'
    refine ⟨by rw [halike.dataInputs]; exact hin, ?_, fun s' hs' => ?_⟩
    · rw [hinputs]
      exact hyields.withMemo (some s)
    · rw [← Option.some.inj hs']
      exact hs
  · rw [if_neg hz] at hop'
    obtain ⟨hin, hyields, hmemo⟩ := h z op' t hop' ht
    exact ⟨by rw [halike.dataInputs]; exact hin, hinputs ▸ hyields, hmemo⟩

end Repeats

/-! ## Edits -/

/-- Each operator of `q` follows one of `p`. -/
def Follows (p q : Plan) : Prop :=
  ∀ id op', q.operator? id = some op' → ∃ op, p.operator? id = some op ∧ op.Follows op'

namespace Follows

theorem refl : Follows p p := fun _ op h => ⟨op, h, .refl⟩

theorem trans (h : Follows p q) (h' : Follows q r) : Follows p r := by
  intro id op'' hop''
  obtain ⟨op', hop', hfollows'⟩ := h' id op'' hop''
  obtain ⟨op, hop, hfollows⟩ := h id op' hop'
  exact ⟨op, hop, hfollows.trans hfollows'⟩

theorem forgetAt {ids : List NodeId} : Follows p (p.forgetAt ids) := by
  intro id op' hop'
  rw [operator?_forgetAt] at hop'
  split at hop'
  · obtain ⟨op, hop, rfl⟩ := Option.map_eq_some_iff.mp hop'
    exact ⟨op, hop, .forget⟩
  · exact ⟨op', hop', .refl⟩

theorem invalidate : Follows p (p.invalidate id) := forgetAt

theorem foldl_invalidate : ∀ {ids : List NodeId} {p : Plan},
    Follows p (ids.foldl Plan.invalidate p) := by
  intro ids
  induction ids with
  | nil => exact .refl
  | cons id ids ih => exact invalidate.trans ih

/-- Operators are taken out at most. -/
theorem graph {g : Graph Operator}
    (h : ∀ z op, g.content? z = some op → p.graph.content? z = some op) :
    Follows p { p with graph := g } :=
  fun z op hop => ⟨op, h z op hop, .refl⟩

/-- An operator is changed into one that follows it. -/
theorem update {change : Operator → Operator} {u : Unit}
    (h : ∀ op, p.operator? id = some op → op.Follows (change op.forget))
    (hrun : Plan.update id change p = .ok u q) : Follows p q ∧ ∃ op, p.operator? id = some op ∧
      q.operator? id = some (change op.forget) := by
  unfold Plan.update at hrun
  rw [Pass.bind_of_ok Pass.get_apply] at hrun
  by_cases hid : p.contains id = true
  · rw [if_pos hid] at hrun
    obtain ⟨-, rfl⟩ := EStateM.Result.ok.inj hrun
    have hview : ∀ z, ((p.invalidate id).graph.update id change).content? z = if z = id then
        ((p.invalidate id).operator? z).map change else (p.invalidate id).operator? z :=
      fun z => content?_update
    -- the operator itself is among those whose schemas are forgotten
    have hself : (p.invalidate id).operator? id = (p.operator? id).map Operator.forget :=
      operator?_forgetAt.trans (if_pos (self_mem_descendants hid))
    obtain ⟨op, hop⟩ := exists_operator? hid
    refine ⟨fun z op' hop' => ?_, op, hop, ?_⟩
    · have hop' := (hview z).symm.trans hop'
      split at hop'
      · rename_i hz
        subst hz
        rw [hself, hop] at hop'
        exact ⟨op, hop, Option.some.inj hop' ▸ h op hop⟩
      · exact invalidate z op' hop'
    · refine (hview id).trans ?_
      rw [if_pos rfl, hself, hop]
      rfl
  · rw [if_neg hid] at hrun
    cases hrun

theorem bypass (hwf : p.graph.WellFormed) (hrun : Plan.bypass x p = .ok op q) : Follows p q := by
  have hinv := Alike.invalidate (p := p) (x := x)
  obtain ⟨g, hg, rfl⟩ := detaching_eq_ok hrun
  obtain ⟨-, -, -, -, hcontent, -⟩ := (hinv.wellFormed hwf).bypass_rewired hg
  have hgraph : Follows (p.invalidate x) { p with graph := g } := by
    refine graph (p := p.invalidate x) fun z op hop => ?_
    rw [hcontent] at hop
    split at hop
    · cases hop
    · exact hop
  exact invalidate.trans (hgraph.trans foldl_invalidate)

theorem setPredicate {u : Unit} (hrun : Rule.setPredicate id f p = .ok u q) : Follows p q ∧
    ∃ op, q.operator? id = some op ∧ op.operation = .filter f := by
  unfold Rule.setPredicate at hrun
  obtain ⟨_, p₁, hforget, hrun⟩ := Pass.bind_eq_ok.mp hrun
  rw [Pass.bind_of_ok Pass.get_apply] at hrun
  obtain ⟨op, hfound, hrun⟩ := bind_ofResult_eq_ok.mp hrun
  have hop := operator_eq_ok.mp hfound
  obtain ⟨hfirst, -⟩ := update (fun op _ => .forget) hforget
  cases hfilter : op.operation with
  | filter g =>
    rw [hfilter] at hrun
    obtain ⟨hsecond, op', -, hop'⟩ := update (fun op' hop' => by
      obtain rfl : op = op' := Option.some.inj (hop.symm.trans hop')
      exact .filter hfilter rfl rfl) hrun
    exact ⟨hfirst.trans hsecond, _, hop', rfl⟩
  | _ =>
    rw [hfilter] at hrun
    cases hrun

end Follows

/-- Edits whose operators follow those before may lead edges from other operators, as long as these
have had the same schema. -/
theorem Repeats.follows {ρ : NodeId → NodeId} (h : Repeats p q) (hf : Follows q r)
    (hρ : ∀ y t, p.bareOf y = some t → p.bareOf (ρ y) = some t)
    (hins : ∀ z, r.graph.contains z = true → r.dataInputs z = (q.dataInputs z).map ρ) :
    Repeats p r := by
  intro z op' t hop' ht
  obtain ⟨op, hop, hfollows⟩ := hf z op' hop'
  obtain ⟨hin, hyields, hmemo⟩ := h z op t hop ht
  have hz := hins z (contains_of_operator? hop')
  have hsame : ∀ y ∈ q.dataInputs z, p.bareOf (ρ y) = p.bareOf y := by
    intro y hy
    obtain ⟨s, hs⟩ := Option.isSome_iff_exists.mp (hin y hy)
    rw [hs, hρ y s hs]
  refine ⟨fun y hy => ?_, ?_, fun s hs => ?_⟩
  · rw [hz] at hy
    obtain ⟨x, hx, rfl⟩ := List.mem_map.mp hy
    rw [hsame x hx]
    exact hin x hx
  · have hinputs : bareInputs p r z = bareInputs p q z := by
      rw [bareInputs, hz, List.map_map, bareInputs]
      exact List.map_congr_left fun y hy => congrArg Option.join (hsame y hy)
    rw [hinputs]
    exact hfollows.yields _ _ hyields
  · rcases hfollows.memo with hnone | heq
    · rw [hnone] at hs
      cases hs
    · exact hmemo s (heq ▸ hs)

/-! ## Noting keys -/

theorem update_eq_error {change : Operator → Operator} {e : Error}
    (h : Plan.update id change p = .error e q) : p = q := by
  unfold Plan.update at h
  rw [Pass.bind_of_ok Pass.get_apply] at h
  split at h
  · cases h
  · exact (EStateM.Result.error.inj h).2

/-- A load has the declared schema, whichever keys are noted on it. -/
theorem Repeats.keeps_annotate (id : NodeId) (table : KeyTable) :
    Pass.Keeps (Repeats p) (annotate id table) := by
  intro q h
  unfold Pass.after
  cases hrun : annotate id table q with
  | error e r => exact update_eq_error hrun ▸ h
  | ok u r =>
    have hchecks : SameChecks q r := (Plan.keeps_annotate id table).of_ok .refl hrun
    obtain ⟨hfollows, -⟩ := Follows.update (fun op _ => by
      cases ho : op.operation with
      | load l =>
        simp only [Operator.forget, ho]
        exact .load ho rfl rfl rfl
      | _ =>
        simp only [Operator.forget, ho]
        exact ho ▸ .forget) hrun
    exact h.follows hfollows (fun _ _ ht => ht) fun z _ => by
      rw [hchecks.dataInputs, List.map_id']

end Plan

end Dataflow

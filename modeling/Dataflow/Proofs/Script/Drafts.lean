import Dataflow.Proofs.Plan.Coherent
import Dataflow.Proofs.Plan.Growth
import Dataflow.Script.Draft

/-!
# What statements do to a draft

Carrying a statement out first looks names up and resolves expressions against derived schemas,
which leaves the draft as it is but for the schemas (`Reads`), and then adds operators behind the
others and binds names to them (`Adds`). A statement that fails on the way keeps what it had added
by then. So whether or not statements fail, the draft stays sound (`Sown`) and keeps what it had
(`GrowsBy`).
-/

namespace Dataflow

namespace Plan

/-- What is known once a plan was asked for schemas goes on to hold while it is asked. -/
theorem derived_extends {p : Plan} : KeptByDeriving (Extends p) :=
  .of_ok fun _ _ _ hp hrun => hp.trans (Extends.deriveOne hp.coherent hrun).1

end Plan

namespace Draft

open Plan (Alike Grows)

variable {β γ : Type} {d d' d'' : Draft} {names : List String} {n k l : Nat} {e : Error}

/-- The plan is sound, and names mean operators that produce rows, each a different one. -/
structure Sown (n : Nat) (d : Draft) : Prop where
  plan : d.plan.Sown n
  names : ∀ (name : String) (id : NodeId), d.names[name]? = some id →
    ∃ t, d.plan.HasType id t ∧ t ≠ .store
  injective : ∀ (name name' : String) (id : NodeId), d.names[name]? = some id →
    d.names[name']? = some id → name = name'

/-- Only schemas were derived. -/
structure Untouched (d d' : Draft) : Prop where
  plan : Alike d.plan d'.plan
  names : d'.names = d.names

/-- The plan grew, and only the listed names were bound, to new operators. -/
structure GrowsBy (names : List String) (d d' : Draft) : Prop where
  plan : Grows d.plan d'.plan
  names : ∀ name : String, d'.names[name]? = d.names[name]? ∨
    name ∈ names ∧ ∃ id : NodeId, d'.names[name]? = some id ∧ d.plan.graph.contains id = false

theorem Sown.mono (h : d.Sown n) (hnk : n ≤ k) : d.Sown k :=
  ⟨h.plan.mono hnk, h.names, h.injective⟩

theorem Sown.empty : ({} : Draft).Sown 0 where
  plan := .empty _
  names name id hid := by simp at hid
  injective name name' id hid := by simp at hid

theorem Sown.contains {name : String} {id : NodeId} (h : d.Sown n)
    (hid : d.names[name]? = some id) : d.plan.graph.contains id = true := by
  obtain ⟨t, ⟨op, hop, -⟩, -⟩ := h.names name id hid
  exact Plan.contains_of_operator? hop

/-- Another plan that has the named operators. -/
theorem Sown.withPlan {q : Plan} (h : d.Sown n) (hq : q.Sown k)
    (hkept : ∀ id t, d.plan.HasType id t → q.HasType id t) :
    ({ d with plan := q } : Draft).Sown k where
  plan := hq
  names name id hid := by
    obtain ⟨t, ht, hstore⟩ := h.names name id hid
    exact ⟨t, hkept id t ht, hstore⟩
  injective := h.injective

theorem Untouched.refl : Untouched d d := ⟨.refl, rfl⟩

theorem Untouched.trans (h : Untouched d d') (h' : Untouched d' d'') : Untouched d d'' :=
  ⟨h.plan.trans h'.plan, h'.names.trans h.names⟩

theorem Untouched.growsBy (h : Untouched d d') : GrowsBy names d d' :=
  ⟨.of_alike h.plan, fun _ => .inl (by rw [h.names])⟩

theorem GrowsBy.refl : GrowsBy names d d := Untouched.growsBy .refl

theorem GrowsBy.trans (h : GrowsBy names d d') (h' : GrowsBy names d' d'') :
    GrowsBy names d d'' where
  plan := h.plan.trans h'.plan
  names name := by
    rcases h'.names name with heq | ⟨hmem, id, hid, hnew⟩
    · exact heq ▸ h.names name
    · refine .inr ⟨hmem, id, hid, ?_⟩
      by_contra hold
      rw [Bool.not_eq_false] at hold
      simp [h.plan.contains hold] at hnew

theorem ofResult_eq_ok {r : Result β} {b : β} :
    ofResult r d = .ok b d' ↔ r = .ok b ∧ d = d' := by
  cases r <;> simp [ofResult]

/-! ## Steps that only read -/

/-- However the step ends, it at most derives schemas. -/
def Reads (x : Edit β) : Prop :=
  ∀ d₀ n, Pass.Keeps (fun d => d.Sown n ∧ Untouched d₀ d) x

namespace Reads

theorem pure {b : β} : Reads (pure b) := fun _ _ => Pass.Keeps.pure

theorem throw : Reads (β := β) (throw e) := fun _ _ => Pass.Keeps.throw

theorem get : Reads get := fun _ _ => Pass.Keeps.get

theorem ofResult {r : Result β} : Reads (ofResult r) := by
  cases r with
  | ok b => exact .pure
  | error e => exact .throw

theorem bind {x : Edit β} {f : β → Edit γ} (hx : Reads x) (hf : ∀ b, Reads (f b)) :
    Reads (x >>= f) := fun d₀ n => (hx d₀ n).bind fun b => hf b d₀ n

theorem mapM {f : β → Edit γ} (hf : ∀ b, Reads (f b)) (bs : List β) : Reads (bs.mapM f) :=
  fun d₀ n => .mapM (fun b => hf b d₀ n) bs

/-- What happens on the way to an error. -/
theorem error {x : Edit β} (hx : Reads x) (h : d.Sown n) (hrun : x d = .error e d') :
    d'.Sown n ∧ Untouched d d' :=
  (hx d n).of_error ⟨h, .refl⟩ hrun

theorem ok {x : Edit β} {b : β} (hx : Reads x) (h : d.Sown n) (hrun : x d = .ok b d') :
    d'.Sown n ∧ Untouched d d' :=
  (hx d n).of_ok ⟨h, .refl⟩ hrun

end Reads

theorem after_onPlan {edit : Plan.Edit β} :
    Pass.after (onPlan edit) d = { d with plan := Pass.after edit d.plan } := by
  unfold Pass.after onPlan
  cases edit d.plan <;> rfl

theorem reads_onPlan {edit : Plan.Edit β}
    (hedit : ∀ p, Pass.Keeps (Plan.Extends p) edit) : Reads (onPlan edit) := by
  intro d₀ n d ⟨h, huntouched⟩
  rw [after_onPlan]
  have hext := hedit d.plan d.plan (.refl h.plan.coherent)
  exact ⟨h.withPlan (h.plan.extended hext) fun _ _ => hext.alike.sameOperators.hasType.mpr,
    huntouched.trans ⟨hext.alike, rfl⟩⟩

theorem reads_input (name user : String) : Reads (input name user) :=
  .bind .get fun _ => .ofResult

theorem reads_compile (e : Expr) (inputs : List NodeId) (user : String) :
    Reads (compile e inputs user) :=
  reads_onPlan fun _ =>
    .bind (.mapM (fun _ => Plan.derived_extends.schema) _) fun _ => Plan.keeps_ofResult

theorem reads_checked (id : NodeId) : Reads (checked id) :=
  .bind (fun d₀ n => .discard (reads_onPlan (fun _ => Plan.derived_extends.schema) d₀ n))
    fun _ => .pure

theorem reads_joinKeys (ids : List NodeId) (user : String) (keys : List (List Expr)) :
    Reads (joinKeys ids user keys) :=
  .mapM (fun _ => .mapM (fun _ => reads_compile _ _ _) _) _

/-! ## Steps that add -/

/-- However the step ends, it takes at most `k` keys, and adds to the draft no more than operators
and the listed names. -/
def Adds (names : List String) (k : Nat) (x : Edit β) : Prop :=
  ∀ n d, n + k < 2 ^ 64 → d.Sown n →
    (Pass.after x d).Sown (n + k) ∧ GrowsBy names d (Pass.after x d)

theorem Reads.adds {x : Edit β} (hx : Reads x) : Adds names 0 x := by
  intro n d _ h
  obtain ⟨h', huntouched⟩ := hx d n d ⟨h, .refl⟩
  exact ⟨h', huntouched.growsBy⟩

namespace Adds

theorem bind {x : Edit β} {f : β → Edit γ} (hx : Adds names k x) (hf : ∀ b, Adds names l (f b)) :
    Adds names (k + l) (x >>= f) := by
  intro n d hroom h
  have hx := hx n d (by omega) h
  rw [Pass.after_bind]
  unfold Pass.after at hx
  cases hrun : x d with
  | error e t =>
    rw [hrun] at hx
    exact ⟨hx.1.mono (by omega), hx.2⟩
  | ok b t =>
    rw [hrun] at hx
    obtain ⟨h', hgrows⟩ := hf b (n + k) t (by omega) hx.1
    exact ⟨Nat.add_assoc n k l ▸ h', hx.2.trans hgrows⟩

theorem read_bind {x : Edit β} {f : β → Edit γ} (hx : Reads x) (hf : ∀ b, Adds names k (f b)) :
    Adds names k (x >>= f) :=
  Nat.zero_add k ▸ bind hx.adds hf

theorem bind_read {x : Edit β} {f : β → Edit γ} (hx : Adds names k x) (hf : ∀ b, Reads (f b)) :
    Adds names k (x >>= f) := bind hx fun b => (hf b).adds

theorem ofResult_bind {r : Result β} {f : β → Edit γ} (hf : ∀ b, r = .ok b → Adds names k (f b)) :
    Adds names k (ofResult r >>= f) := by
  cases r with
  | ok b => exact hf b rfl
  | error e => exact fun n d _ h => ⟨h.mono (Nat.le_add_right n k), .refl⟩

theorem mapM {f : β → Edit γ} : ∀ {bs : List β}, (∀ b ∈ bs, Adds names k (f b)) →
    Adds names (bs.length * k) (bs.mapM f)
  | [], _ => by
    rw [List.mapM_nil, List.length_nil, Nat.zero_mul]
    exact Reads.adds .pure
  | b :: bs, hf => by
    rw [List.mapM_cons, List.length_cons, Nat.succ_mul, Nat.add_comm]
    exact bind (hf b (by simp)) fun _ =>
      bind_read (mapM fun b hb => hf b (List.mem_cons_of_mem _ hb)) fun _ => .pure

end Adds

/-- What a plan that grew makes of a draft. -/
theorem Sown.onPlan {q : Plan} (h : d.Sown n) (hq : q.Sown k) (hgrows : Grows d.plan q) :
    ({ d with plan := q } : Draft).Sown k ∧ GrowsBy names d { d with plan := q } :=
  ⟨h.withPlan hq fun _ _ => hgrows.hasType, hgrows, fun _ => .inl rfl⟩

theorem getElem?_insert_eq_some {m : Std.TreeMap String NodeId} {name x : String} {id y : NodeId} :
    (m.insert name id)[x]? = some y ↔ x = name ∧ y = id ∨ x ≠ name ∧ m[x]? = some y := by
  rw [Std.TreeMap.getElem?_insert]
  by_cases hx : x = name
  · subst hx
    simp [Std.ReflCmp.compare_self, eq_comm]
  · have hne : ¬compare name x = .eq := fun heq => hx (Std.LawfulEqCmp.eq_of_compare heq).symm
    simp [hne, hx]

/-- A name is bound to a new operator that produces rows. -/
theorem Sown.bind {name : String} {id : NodeId} {t : OperatorType} (h : d.Sown n)
    (ht : d.plan.HasType id t) (hstore : t ≠ .store)
    (hnew : ∀ name' : String, d.names[name']? ≠ some id) :
    ({ d with names := d.names.insert name id } : Draft).Sown n where
  plan := h.plan
  names name' id' hid := by
    rcases getElem?_insert_eq_some.mp hid with ⟨-, rfl⟩ | ⟨-, hid⟩
    · exact ⟨t, ht, hstore⟩
    · exact h.names name' id' hid
  injective x y id' hx hy := by
    rcases getElem?_insert_eq_some.mp hx with ⟨hxn, rfl⟩ | ⟨-, hold⟩ <;>
      rcases getElem?_insert_eq_some.mp hy with ⟨hyn, heq⟩ | ⟨-, hold'⟩
    · rw [hxn, hyn]
    · exact absurd hold' (hnew y)
    · exact absurd (hold.trans (congrArg some heq)) (hnew x)
    · exact h.injective x y id' hold hold'

theorem GrowsBy.bind {name : String} {id : NodeId} (h : GrowsBy names d d') (hname : name ∈ names)
    (hid : d.plan.graph.contains id = false) :
    GrowsBy names d { d' with names := d'.names.insert name id } where
  plan := h.plan
  names name' := by
    show (d'.names.insert name id)[name']? = _ ∨
      _ ∧ ∃ id', (d'.names.insert name id)[name']? = _ ∧ _
    rw [Std.TreeMap.getElem?_insert]
    split_ifs with heq
    · obtain rfl := Std.LawfulEqCmp.eq_of_compare heq
      exact .inr ⟨hname, id, rfl, hid⟩
    · exact h.names name'

theorem adds_insert (op : Operator) (inputs : List NodeId) :
    Adds names 1 (onPlan (Plan.append op inputs)) := by
  intro n d hroom h
  obtain ⟨hq, hfed⟩ := Plan.append_keeps h.plan hroom op inputs
  rw [after_onPlan]
  exact h.onPlan hq (.of_fed h.plan hfed)

/-- What adding a named operator makes of a draft. -/
def appended (name : String) (d : Draft) :
    EStateM.Result Error Plan NodeId → EStateM.Result Error Draft NodeId
  | .ok id plan => .ok id { plan, names := d.names.insert name id }
  | .error e plan => .error e { d with plan }

theorem append_apply (name : String) (inputs : List NodeId) (operation : Operation) (d : Draft) :
    append name inputs operation d =
      appended name d (Plan.append { name := some name, operation } inputs d.plan) := by
  unfold append
  cases hrun : Plan.append { name := some name, operation } inputs d.plan with
  | ok id q =>
    have hplan : onPlan (Plan.append { name := some name, operation } inputs) d =
        .ok id { d with plan := q } := by simp only [onPlan, hrun]
    rw [Pass.bind_of_ok hplan]
    rfl
  | error e q =>
    exact Pass.bind_eq_error.mpr (.inl (by simp only [onPlan, hrun]))

theorem adds_append {name : String} (hname : name ∈ names) (inputs : List NodeId)
    {o : Operation} (ho : o.type ≠ .store) : Adds names 1 (append name inputs o) := by
  intro n d hroom h
  obtain ⟨hq, hfed⟩ := Plan.append_keeps h.plan hroom { name := some name, operation := o }
    inputs
  have hgrows := Plan.Grows.of_fed h.plan hfed
  unfold Pass.after at hq hgrows ⊢
  rw [append_apply]
  cases hrun : Plan.append { name := some name, operation := o } inputs d.plan with
  | error e q =>
    rw [hrun] at hq hgrows
    exact h.onPlan hq hgrows
  | ok id q =>
    rw [hrun] at hq hgrows
    obtain ⟨h', hgrown⟩ : ({ d with plan := q } : Draft).Sown (n + 1) ∧
        GrowsBy names d { d with plan := q } := h.onPlan hq hgrows
    obtain ⟨rfl, -, -, hcore, -⟩ := Plan.append_eq_ok h.plan hroom hrun
    have htype : q.HasType d.plan.next o.type := by
      refine Plan.hasType_iff_core?.mpr ⟨_, hcore, ?_⟩
      rw [Operator.type_core]
      exact Operation.type_withUids o d.plan.uids
    refine ⟨h'.bind htype ho fun name' hid => ?_, hgrown.bind hname h.plan.fresh⟩
    have hold := h.contains hid
    simp [h.plan.fresh] at hold

theorem adds_branch {name : String} (hname : name ∈ names) (split : NodeId) (condition : Expr) :
    Adds names 1 (branch split name condition) :=
  .read_bind (reads_compile _ _ _) fun _ => adds_append hname _ (by simp [Operation.type])

/-- A draft to which a named operator was added. -/
theorem append_eq_ok {name : String} {inputs : List NodeId} {o : Operation} {id : NodeId}
    (h : d.Sown n) (hroom : n + 1 < 2 ^ 64) (ho : o.type ≠ .store)
    (hrun : append name inputs o d = .ok id d') :
    id = d.plan.next ∧ d'.Sown (n + 1) ∧ Grows d.plan d'.plan ∧
      d'.plan.core? id = some (d.plan.numbered { name := some name, operation := o }).core ∧
      d'.plan.graph.predecessors id = inputs ∧ d'.plan.graph.ids = d.plan.graph.ids ++ [id] ∧
      d'.names = d.names.insert name id := by
  have hadds := (adds_append (List.mem_singleton_self name) inputs ho n d hroom h).1
  rw [Pass.after, hrun] at hadds
  rw [append_apply] at hrun
  cases hplan : Plan.append { name := some name, operation := o } inputs d.plan with
  | error e q => simp [hplan, appended] at hrun
  | ok id' q =>
    obtain ⟨rfl, rfl⟩ : id' = id ∧ _ = d' := by simpa [hplan, appended] using hrun
    obtain ⟨rfl, -, hgrows, hcore, hpre, hids⟩ := Plan.append_eq_ok h.plan hroom hplan
    exact ⟨rfl, hadds, hgrows, hcore, hpre, hids, rfl⟩

end Draft

/-! ## Statements -/

namespace Statement

/-- The names that a statement binds. -/
def names : Statement → List String
  | .load name _ _ | .filter name _ _ | .forEach name _ _ | .join name _ _ | .cross name _
  | .union name _ | .distinct name _ | .sort name _ _ | .limit name _ _ => [name]
  | .split _ branches => branches.map BranchSpec.name
  | .store _ _ => []

/-- How many operators a statement adds. -/
def keys : Statement → Nat
  | .split _ branches => 1 + branches.length
  | _ => 1

/-- What does not come from the expressions is as written. -/
theorem map_of_expressions {α β γ : Type} {source : α → Yaml.Value} {make : α → Expr → β}
    {items : List α} {made : List β} {f : β → γ} {g : α → γ} (hf : ∀ a e, f (make a e) = g a)
    (h : expressions source make items = .ok made) : made.map f = items.map g := by
  refine Pass.map_of_mapM (fun a b hb => ?_) h
  obtain ⟨e, -, hb⟩ := Pass.except_bind_eq_ok.mp hb
  obtain rfl := Except.ok.inj hb
  exact hf a e

open Draft in
/-- However a statement ends, the draft stays sound and has what it had. -/
theorem adds_apply (st : Statement) : Adds st.names st.keys st.apply := by
  have single {name : String} {edit : Draft.Edit NodeId} {f : NodeId → List NodeId}
      (h : Adds [name] 1 edit) : Adds [name] 1 (do return f (← edit)) :=
    h.bind_read fun _ => .pure
  cases st with
  | load name path columns =>
    exact .read_bind .ofResult fun _ => single (adds_append (by simp) _ (by simp [Operation.type]))
  | filter name input predicate =>
    refine .read_bind .ofResult fun _ => single (.read_bind (reads_input _ _) fun _ => ?_)
    exact .read_bind (reads_compile _ _ _) fun _ =>
      adds_append (by simp) _ (by simp [Operation.type])
  | forEach name input items =>
    refine .read_bind .ofResult fun _ => single (.read_bind (reads_input _ _) fun _ => ?_)
    refine .read_bind (.mapM (fun _ => .bind (reads_compile _ _ _) fun _ => .pure) _) fun _ => ?_
    exact (adds_append (by simp) _ (by simp [Operation.type])).bind_read reads_checked
  | join name inputs type =>
    refine .read_bind .ofResult fun _ => single ?_
    refine .read_bind (.mapM (fun _ => reads_input _ _) _) fun _ => ?_
    refine .read_bind (reads_joinKeys _ _ _) fun keys => ?_
    dsimp only
    split
    · exact (adds_append (by simp) _ (by simp [Operation.type])).bind_read reads_checked
    · exact .read_bind .throw fun _ =>
        (adds_append (by simp) _ (by simp [Operation.type])).bind_read reads_checked
  | cross name inputs =>
    refine single (.read_bind (.mapM (fun _ => reads_input _ _) _) fun _ => ?_)
    exact (adds_append (by simp) _ (by simp [Operation.type])).bind_read reads_checked
  | union name inputs =>
    refine single (.read_bind (.mapM (fun _ => reads_input _ _) _) fun _ => ?_)
    exact adds_append (by simp) _ (by simp [Operation.type])
  | distinct name input =>
    refine single (.read_bind (reads_input _ _) fun _ => ?_)
    exact adds_append (by simp) _ (by simp [Operation.type])
  | split input branches =>
    refine .ofResult_bind fun made hmade => ?_
    have hmap : made.map Prod.fst = branches.map BranchSpec.name :=
      map_of_expressions (fun _ _ => rfl) hmade
    have hlen : branches.length = made.length := by
      rw [← List.length_map (f := BranchSpec.name), ← hmap, List.length_map]
    refine .read_bind (reads_input _ _) fun _ => Adds.bind (adds_insert _ _) fun id => ?_
    rw [hlen, ← Nat.mul_one made.length]
    refine .mapM fun b hb => adds_branch ?_ _ _
    rw [names, ← hmap]
    exact List.mem_map_of_mem hb
  | sort name input keys =>
    refine .read_bind .ofResult fun _ => single (.read_bind (reads_input _ _) fun _ => ?_)
    refine .read_bind (.mapM (fun _ => .bind (reads_compile _ _ _) fun _ => .pure) _) fun _ => ?_
    exact adds_append (by simp) _ (by simp [Operation.type])
  | limit name input count =>
    refine single (.read_bind (reads_input _ _) fun _ => ?_)
    exact adds_append (by simp) _ (by simp [Operation.type])
  | store input path =>
    exact (Adds.read_bind (reads_input _ _) fun _ => adds_insert _ _).bind_read fun _ => .pure

end Statement

end Dataflow

import Dataflow.Proofs.Plan.Issued
import Dataflow.Proofs.Plan.Lineage
import Dataflow.Proofs.Script.Sessions

/-!
# What lasts while a session goes on

Statements, the ends of batches and questions about schemas do four things to a plan: they derive an
operator, add one of which nothing has an identity yet, connect inputs to it, and make a load wait
for a store. A property of plans that these keep (`Plan.Lasting`) holds after every history of a
session that it holds at the start of, whether or not what happens succeeds (`Plan.Lasting.runAll`).
-/

namespace Dataflow

section

/-! ## Declared schemas -/

mutual

/-- What a statement declares has no identities yet and is computed from nothing. -/
theorem ColumnSpec.blank_field : ∀ (c : ColumnSpec) (f : Field), c.field = .ok f →
    (∀ u ∈ f.allUids, u.val = 0) ∧ f.allParents = []
  | .mk name type inner => by
    intro f h
    unfold ColumnSpec.field at h
    cases ht : DataType.read? type with
    | none => simp [ht] at h
    | some t =>
      simp only [ht] at h
      obtain ⟨nested, hnested, h⟩ := Pass.except_bind_eq_ok.mp h
      obtain rfl := Except.ok.inj h
      obtain ⟨huids, hparents⟩ := ColumnSpec.blank_nestedSchema inner nested hnested
      simp only [Field.allUids, Field.allParents, hparents, List.append_nil, and_true]
      exact List.forall_mem_cons.mpr ⟨rfl, huids⟩
termination_by structural c => c

theorem ColumnSpec.blank_nestedSchema : ∀ (inner : Option (List ColumnSpec)) (s : Option Schema),
    ColumnSpec.nestedSchema inner = .ok s →
      (∀ u ∈ Schema.nestedUids s, u.val = 0) ∧ Schema.nestedParents s = []
  | none => by
    intro s h
    obtain rfl := Except.ok.inj h
    simp [Schema.nestedUids, Schema.nestedParents]
  | some cs => by
    intro s h
    unfold ColumnSpec.nestedSchema at h
    obtain ⟨t, ht, h⟩ := Pass.except_bind_eq_ok.mp h
    obtain rfl := Except.ok.inj h
    exact ColumnSpec.blank_schema cs t ht
termination_by structural inner => inner

theorem ColumnSpec.blank_schema : ∀ (cs : List ColumnSpec) (s : Schema),
    ColumnSpec.schema cs = .ok s → (∀ u ∈ Schema.allUids s, u.val = 0) ∧ Schema.allParents s = []
  | [] => by
    intro s h
    obtain rfl := Except.ok.inj h
    simp [Schema.allUids, Schema.allParents]
  | c :: cs => by
    intro s h
    unfold ColumnSpec.schema at h
    obtain ⟨f, hf, h⟩ := Pass.except_bind_eq_ok.mp h
    obtain ⟨rest, hrest, h⟩ := Pass.except_bind_eq_ok.mp h
    obtain rfl := Except.ok.inj h
    obtain ⟨hfu, hfp⟩ := ColumnSpec.blank_field c f hf
    obtain ⟨hsu, hsp⟩ := ColumnSpec.blank_schema cs rest hrest
    simp only [Schema.allUids, Schema.allParents, hfp, hsp, List.append_nil, and_true]
    exact List.forall_mem_append.mpr ⟨hfu, hsu⟩
termination_by structural cs => cs

end

/-! ## Properties that last -/

/-- The property of plans with so many keys outlasts whatever a session does to its plan. -/
structure Plan.Lasting (I : Nat → Plan → Prop) : Prop where
  sown : ∀ {n p}, I n p → p.Sown n
  mono : ∀ {n k p}, n ≤ k → I n p → I k p
  derives : ∀ n, Plan.KeptByDeriving (I n)
  appends : ∀ {n p} (op : Operator) (inputs : List NodeId), op.operation.IsBlank → n + 1 < 2 ^ 64 →
    I n p → I (n + 1) (Pass.after (Plan.append op inputs) p)
  awaits : ∀ {n p q a b}, p.HasType a .store → p.HasType b .load → p.graph.reaches b a = false →
    Plan.connect a b p = .ok () q → I n p → I n q

namespace Draft

variable {β γ : Type} {k l : Nat}

/-- However the step ends, it keeps what lasts and takes at most `k` keys. -/
def Preserves (k : Nat) (x : Edit β) : Prop :=
  ∀ I, Plan.Lasting I → ∀ n d, n + k < 2 ^ 64 → I n d.plan → I (n + k) (Pass.after x d).plan

/-- The step may end with the value. -/
def Gives (x : Edit β) (b : β) : Prop := ∃ d d', x d = .ok b d'

theorem gives_bind {x : Edit β} {f : β → Edit γ} {c : γ} (h : Gives (x >>= f) c) :
    ∃ b, Gives x b ∧ Gives (f b) c := by
  obtain ⟨d, d', hrun⟩ := h
  obtain ⟨b, t, hx, hf⟩ := Pass.bind_eq_ok.mp hrun
  exact ⟨b, ⟨d, t, hx⟩, t, d', hf⟩

theorem eq_of_gives_pure {b c : β} (h : Gives (pure b) c) : c = b := by
  obtain ⟨d, d', hrun⟩ := h
  exact (EStateM.Result.ok.inj hrun).1.symm

theorem gives_mapM {f : β → Edit γ} : ∀ {bs : List β} {cs : List γ}, Gives (bs.mapM f) cs →
    ∀ c ∈ cs, ∃ b, Gives (f b) c
  | [], cs, h, c, hc => by
    rw [List.mapM_nil] at h
    simp [eq_of_gives_pure h] at hc
  | b :: bs, cs, h, c, hc => by
    rw [List.mapM_cons] at h
    obtain ⟨c₀, hb, h⟩ := gives_bind h
    obtain ⟨rest, hrest, h⟩ := gives_bind h
    obtain rfl := eq_of_gives_pure h
    rcases List.mem_cons.mp hc with rfl | hc
    · exact ⟨b, hb⟩
    · exact gives_mapM hrest c hc

namespace Preserves

theorem of_keeps {x : Edit β}
    (h : ∀ I, Plan.Lasting I → ∀ n, Pass.Keeps (fun d => I n d.plan) x) : Preserves 0 x :=
  fun I hI n d _ hd => h I hI n d hd

theorem pure {b : β} : Preserves 0 (pure b) := .of_keeps fun _ _ _ => .pure

theorem throw {e : Error} : Preserves 0 (throw e : Edit β) := .of_keeps fun _ _ _ => .throw

theorem get : Preserves 0 get := .of_keeps fun _ _ _ => .get

theorem bind {x : Edit β} {f : β → Edit γ} (hx : Preserves k x)
    (hf : ∀ b, Gives x b → Preserves l (f b)) : Preserves (k + l) (x >>= f) := by
  intro I hI n d hroom hd
  have hx := hx I hI n d (by omega) hd
  rw [Pass.after_bind]
  unfold Pass.after at hx
  cases hrun : x d with
  | error e t =>
    rw [hrun] at hx
    exact hI.mono (by omega) hx
  | ok b t =>
    rw [hrun] at hx
    exact Nat.add_assoc n k l ▸ hf b ⟨d, t, hrun⟩ I hI (n + k) t (by omega) hx

theorem read_bind {x : Edit β} {f : β → Edit γ} (hx : Preserves 0 x)
    (hf : ∀ b, Gives x b → Preserves k (f b)) : Preserves k (x >>= f) :=
  Nat.zero_add k ▸ bind hx hf

theorem bind_read {x : Edit β} {f : β → Edit γ} (hx : Preserves k x)
    (hf : ∀ b, Preserves 0 (f b)) : Preserves k (x >>= f) := bind hx fun b _ => hf b

theorem mapM {f : β → Edit γ} (hf : ∀ b, Preserves k (f b)) : ∀ bs : List β,
    Preserves (bs.length * k) (bs.mapM f)
  | [] => by
    rw [List.mapM_nil, List.length_nil, Nat.zero_mul]
    exact .pure
  | b :: bs => by
    rw [List.mapM_cons, List.length_cons, Nat.succ_mul, Nat.add_comm]
    exact bind (hf b) fun _ _ => bind_read (mapM hf bs) fun _ => .pure

theorem mapM_read {f : β → Edit γ} (hf : ∀ b, Preserves 0 (f b)) (bs : List β) :
    Preserves 0 (bs.mapM f) := Nat.mul_zero bs.length ▸ mapM hf bs

theorem ofResult {r : Result β} : Preserves 0 (ofResult r) := by
  cases r with
  | ok b => exact .pure
  | error e => exact .throw

theorem onPlan_read {edit : Plan.Edit β}
    (hedit : ∀ {I : Plan → Prop}, Plan.KeptByDeriving I → Pass.Keeps I edit) :
    Preserves 0 (onPlan edit) := .of_keeps fun I hI n d hd => by
  rw [after_onPlan]
  exact hedit (hI.derives n) d.plan hd

theorem input (name user : String) : Preserves 0 (input name user) :=
  .read_bind .get fun _ _ => .ofResult

theorem compile (e : Expr) (inputs : List NodeId) (user : String) :
    Preserves 0 (compile e inputs user) :=
  .onPlan_read fun h => .bind (.mapM (fun _ => h.schema) _) fun _ => Plan.keeps_ofResult

theorem discard {x : Edit β} (hx : Preserves k x) : Preserves k (discard x) := by
  intro I hI n d hroom hd
  rw [Pass.after_discard]
  exact hx I hI n d hroom hd

theorem checked (id : NodeId) : Preserves 0 (checked id) :=
  .read_bind (.discard (.onPlan_read fun h => h.schema)) fun _ _ => .pure

theorem joinKeys (ids : List NodeId) (user : String) (keys : List (List Expr)) :
    Preserves 0 (joinKeys ids user keys) :=
  .mapM_read (fun _ => .mapM_read (fun _ => .compile _ _ _) _) _

theorem onPlan_append (op : Operator) (hblank : op.operation.IsBlank) (inputs : List NodeId) :
    Preserves 1 (onPlan (Plan.append op inputs)) := by
  intro I hI n d hroom hd
  rw [after_onPlan]
  exact hI.appends op inputs hblank hroom hd

theorem append {o : Operation} (hblank : o.IsBlank) (name : String) (inputs : List NodeId) :
    Preserves 1 (append name inputs o) :=
  .bind_read (.onPlan_append { name := some name, operation := o } hblank inputs) fun _ =>
    .read_bind (.of_keeps fun _ _ _ => .modify fun _ h => h) fun _ _ => .pure

end Preserves

end Draft

open Draft in
/-- However a statement ends, it keeps what lasts. -/
theorem Statement.preserves (st : Statement) : Preserves st.keys st.apply := by
  have single {edit : Draft.Edit NodeId} {f : NodeId → List NodeId} (h : Preserves 1 edit) :
      Preserves 1 (do return f (← edit)) := h.bind_read fun _ => .pure
  cases st with
  | load name path columns =>
    refine .read_bind .ofResult fun declared hdeclared => single (.append ?_ _ _)
    intro s hs
    obtain ⟨d, d', hrun⟩ := hdeclared
    have hblank := ColumnSpec.blank_nestedSchema columns declared (Draft.ofResult_eq_ok.mp hrun).1
    rw [show declared = some s from hs] at hblank
    exact hblank
  | filter name input predicate =>
    refine .read_bind .ofResult fun _ _ => single (.read_bind (.input _ _) fun _ _ => ?_)
    exact .read_bind (.compile _ _ _) fun _ _ => .append (by exact trivial) _ _
  | forEach name input items =>
    refine .read_bind .ofResult fun _ _ => single (.read_bind (.input _ _) fun _ _ => ?_)
    refine .read_bind (.mapM_read (fun _ => .read_bind (.compile _ _ _) fun _ _ => .pure) _)
      fun items hitems => ?_
    refine .bind_read (.append ?_ _ _) .checked
    intro item hitem
    obtain ⟨b, hgives⟩ := gives_mapM hitems item hitem
    obtain ⟨formula, -, hgives⟩ := gives_bind hgives
    exact congrArg (fun item : Dataflow.Item => item.uid.val) (eq_of_gives_pure hgives)
  | join name inputs type =>
    refine .read_bind .ofResult fun _ _ => single ?_
    refine .read_bind (.mapM_read (fun _ => .input _ _) _) fun _ _ => ?_
    refine .read_bind (.joinKeys _ _ _) fun keys _ => ?_
    dsimp only
    split
    · exact .bind_read (.append (by exact trivial) _ _) .checked
    · exact .read_bind .throw fun _ _ => .bind_read (.append (by exact trivial) _ _) .checked
  | cross name inputs =>
    refine single (.read_bind (.mapM_read (fun _ => .input _ _) _) fun _ _ => ?_)
    exact .bind_read (.append (by exact trivial) _ _) .checked
  | union name inputs =>
    exact single
      (.read_bind (.mapM_read (fun _ => .input _ _) _) fun _ _ => .append (by exact rfl) _ _)
  | distinct name input =>
    exact single (.read_bind (.input _ _) fun _ _ => .append (by exact trivial) _ _)
  | split input branches =>
    refine .read_bind .ofResult fun made hmade => ?_
    obtain ⟨d, d', hrun⟩ := hmade
    have hmap : made.map Prod.fst = branches.map BranchSpec.name :=
      map_of_expressions (fun _ _ => rfl) (Draft.ofResult_eq_ok.mp hrun).1
    have hlen : branches.length = made.length * 1 := by
      rw [← List.length_map (f := BranchSpec.name), ← hmap, List.length_map, Nat.mul_one]
    refine .read_bind (.input _ _) fun _ _ => .bind (.onPlan_append _ (by exact trivial) _)
      fun id _ => ?_
    rw [hlen]
    exact .mapM (fun _ => .read_bind (.compile _ _ _) fun _ _ => .append (by exact trivial) _ _) _
  | sort name input keys =>
    refine .read_bind .ofResult fun _ _ => single (.read_bind (.input _ _) fun _ _ => ?_)
    refine .read_bind (.mapM_read (fun _ => .read_bind (.compile _ _ _) fun _ _ => .pure) _)
      fun _ _ => ?_
    exact .append (by exact trivial) _ _
  | limit name input count =>
    exact single (.read_bind (.input _ _) fun _ _ => .append (by exact trivial) _ _)
  | store input path =>
    exact .bind_read (.read_bind (.input _ _) fun _ _ => .onPlan_append _ (by exact trivial) _)
      fun _ => .pure

/-! ## Sessions -/

namespace Session

open Plan (Lasting SameOperators)

variable {I : Nat → Plan → Prop} {n : Nat} {s : Session}

/-- Whether or not a statement is taken, what lasts is kept. -/
theorem register_lasting (hI : Lasting I) (st : Statement) (h : I n s.plan)
    (hroom : n + st.keys < 2 ^ 64) : I (n + st.keys) (Pass.after (register st) s).plan := by
  unfold Pass.after
  rw [register_eq]
  cases hst : s.canonical st with
  | error e => exact hI.mono (Nat.le_add_right n _) h
  | ok st' =>
    have hkeys := (canonical_same hst).2
    have hkept := st'.preserves I hI n s.draft (hkeys ▸ hroom) h
    rw [hkeys] at hkept
    unfold Pass.after at hkept
    cases hrun : st'.apply s.draft with
    | ok ids draft => simpa only [registered, hrun] using! hkept
    | error e draft => simpa only [registered, hrun] using! hkept

/-- A load is made to wait for a store, or everything stays as it is. -/
theorem awaitStore_lasting {p : Plan} {load store : NodeId × String} (hI : Lasting I)
    (hload : p.HasType load.1 .load) (hstore : p.HasType store.1 .store) :
    Pass.Keeps (fun q => SameOperators p q ∧ I n q) (awaitStore load store) := by
  intro q ⟨hsame, hq⟩
  by_cases hsettled : q.Settled load store
  · rw [Pass.after, awaitStore_settled hsettled]
    exact ⟨hsame, hq⟩
  · obtain ⟨hplace, hconnected, hback⟩ : load.2 = store.2 ∧
        q.graph.isConnected store.1 load.1 = false ∧ q.graph.reaches load.1 store.1 = false := by
      simpa [Plan.Settled, not_or] using hsettled
    unfold awaitStore
    rw [Pass.after_bind, Pass.get_apply]
    simp only [hplace, hconnected, hback, ne_eq, not_true_eq_false, decide_false, Bool.or_self,
      Bool.false_eq_true, ↓reduceIte]
    rw [Pass.after_bind]
    cases hrun : Plan.connect store.1 load.1 q with
    | error e r =>
      obtain rfl := Plan.connect_eq_error hrun
      exact ⟨hsame, hq⟩
    | ok u r =>
      have hsown := hI.sown hq
      exact ⟨hsame.trans (Plan.linked_of_connect hsown.wellFormed hsown.coherent hrun).same,
        hI.awaits (hsame.hasType.mpr hstore) (hsame.hasType.mpr hload) hback hrun hq⟩

theorem plan_compileBatch : (Pass.after compileBatch s).plan = Pass.after
    ((located s.plan .load).mapM fun load => (located s.plan .store).mapM (awaitStore load))
      s.plan := by
  unfold compileBatch
  rw [Pass.after_bind, Pass.get_apply]
  dsimp only
  rw [Pass.after_bind]
  cases hrun : ((located s.plan .load).mapM fun load =>
      (located s.plan .store).mapM (awaitStore load)) s.plan with
  | ok counts q =>
    rw [onPlan_of_ok hrun, Pass.after, hrun]
    rfl
  | error e q =>
    have herror : onPlan ((located s.plan .load).mapM fun load =>
        (located s.plan .store).mapM (awaitStore load)) s =
          .error e { s with draft := { s.draft with plan := q } } := by
      have hrun : ((located s.plan .load).mapM fun load =>
        (located s.plan .store).mapM (awaitStore load)) s.draft.plan = .error e q := hrun
      simp only [onPlan, onDraft, Draft.onPlan, hrun]
    rw [herror, Pass.after, hrun]
    rfl

/-- What lasts is kept at the end of a batch. -/
theorem compileBatch_lasting (hI : Lasting I) (h : I n s.plan) :
    I n (Pass.after compileBatch s).plan := by
  have hwf := (hI.sown h).wellFormed
  have hall : Pass.Keeps (fun q => SameOperators s.plan q ∧ I n q)
      ((located s.plan .load).mapM fun load => (located s.plan .store).mapM (awaitStore load)) :=
    .mapM_of_mem fun load hload => .mapM_of_mem fun store hstore =>
      awaitStore_lasting hI ((mem_located hwf).mp hload).hasType
        ((mem_located hwf).mp hstore).hasType
  rw [plan_compileBatch]
  exact (hall s.plan ⟨.refl, h⟩).2

/-- What happens to a session: a step, or a question for the schema of an operator. -/
inductive Event where
  | step (taken : Step)
  | request (id : NodeId)

namespace Event

def run : Event → Edit Unit
  | .step taken => taken.run
  | .request id => discard (onPlan (Plan.schema id))

/-- How many operators an event adds. -/
def keys : Event → Nat
  | .step taken => taken.keys
  | .request _ => 0

/-- Lets one thing happen after the other, whether or not it succeeds. -/
def runAll (events : List Event) (s : Session) : Session :=
  events.foldl (fun s event => Pass.after event.run s) s

def totalKeys (events : List Event) : Nat := (events.map keys).sum

theorem run_lasting (hI : Lasting I) {event : Event} (h : I n s.plan)
    (hroom : n + event.keys < 2 ^ 64) : I (n + event.keys) (Pass.after event.run s).plan := by
  cases event with
  | step taken =>
    cases taken with
    | register st =>
      show I _ (Pass.after (discard (register st)) s).plan
      rw [Pass.after_discard]
      exact register_lasting hI st h hroom
    | compileBatch =>
      show I _ (Pass.after (discard Session.compileBatch) s).plan
      rw [Pass.after_discard]
      exact compileBatch_lasting hI h
  | request id =>
    show I _ (Pass.after (discard (onPlan (Plan.schema id))) s).plan
    rw [Pass.after_discard]
    have hplan : (Pass.after (onPlan (Plan.schema id)) s).plan =
        Pass.after (Plan.schema id) s.plan := by
      unfold Pass.after onPlan onDraft Draft.onPlan Session.plan
      cases Plan.schema id s.draft.plan <;> rfl
    rw [hplan]
    exact (hI.derives n).schema s.plan h

/-- What holds of the empty plan and lasts holds after every history, while there are keys. -/
theorem runAll_lasting (hI : Lasting I) : ∀ {events : List Event} {s : Session} {n : Nat},
    I n s.plan → n + totalKeys events < 2 ^ 64 → I (n + totalKeys events) (runAll events s).plan
  | [], _, _, h, _ => h
  | event :: events, s, n, h, hroom => by
    have hsum : n + totalKeys (event :: events) = n + event.keys + totalKeys events := by
      simp [totalKeys, Nat.add_assoc]
    rw [hsum] at hroom ⊢
    have hfirst := Nat.lt_of_le_of_lt (Nat.le_add_right _ _) hroom
    exact runAll_lasting hI (run_lasting hI h hfirst) hroom

end Event

end Session

end

/-!
## Identities in sessions

Whatever happens to a session, an identity of a column is never used for another one, and what a
column names as its parent is a column of an operator that rows come from
(`Session.identified_of_history`).
-/

open Operator (takeUids)

namespace Plan

/-- Sound plans that are booked stay so whatever a session does to them. -/
theorem lasting_booked : Lasting fun n p => p.Sown n ∧ p.Booked where
  sown h := h.1
  mono hnk h := ⟨h.1.mono hnk, h.2⟩
  derives _ := .of_ok fun _ _ _ h hrun =>
    ⟨h.1.extended (Extends.deriveOne h.1.coherent hrun).1, h.2.deriveOne h.1.wellFormed hrun⟩
  appends op inputs hblank hroom h :=
    ⟨(append_keeps h.1 hroom op inputs).1, h.2.append h.1 hblank inputs⟩
  awaits _ hload hback hrun h :=
    ⟨h.1.linked hback (linked_of_connect h.1.wellFormed h.1.coherent hrun), h.2.connect hload hrun⟩

/-- So many identities were handed out, and the operators of the plan own them, each identity once.
While the numbers do not run over, they are numbers below the next one. What a derived schema names
as a parent is a column of a derived schema of an operator that rows come from. -/
structure Identified (n : Nat) (p : Plan) : Prop where
  supply : p.uids = (takeUids n {}).2
  owned : p.ownUids.Perm (takeUids n {}).1
  distinct : n < 2 ^ 64 - 1 → p.ownUids.Nodup ∧ ∀ u ∈ p.ownUids, u.val ≠ 0 ∧ u.val < p.uids.next
  parents : ∀ id s u, p.memoOf id = some (some s) → u ∈ Schema.allParents s →
    ∃ x t, Feeds p id x ∧ p.memoOf x = some (some t) ∧ u ∈ Schema.allUids t

theorem Booked.identified {p : Plan} (h : p.Booked) (hp : p.Ready) : ∃ n, p.Identified n := by
  obtain ⟨n, huids, hperm⟩ := h.issued
  refine ⟨n, huids, hperm, fun hn => ?_, fun id s u => lineage hp h.source⟩
  have hfirst : ({} : UidSupply).next.toNat = 1 := rfl
  obtain ⟨hnext, hnodup, hbetween⟩ := UidSupply.takeUids_spec n {} (by omega)
  refine ⟨hperm.nodup_iff.mpr hnodup, fun u hu => ?_⟩
  obtain ⟨hlow, hhigh⟩ := hbetween u (hperm.mem_iff.mp hu)
  refine ⟨fun hzero => ?_, UInt64.lt_iff_toNat_lt.mpr ?_⟩
  · rw [hzero, hfirst] at hlow
    simp at hlow
  · rw [huids, hnext]
    exact hhigh

end Plan

namespace Session

/-- However a session came to be, as long as there are keys for its operators: no identity of a
column stands for two, and lineage leads back along the flow of rows. -/
theorem identified_of_history {events : List Event} {resolver : Location.Resolver}
    {directory : String} {s : Session} (hkeys : Event.totalKeys events < 2 ^ 64)
    (hs : Event.runAll events { resolver, directory } = s) : ∃ n, s.plan.Identified n := by
  have hstart : Plan.Sown 0 {} ∧ Plan.Booked {} := ⟨.empty _, .empty⟩
  have h := Event.runAll_lasting Plan.lasting_booked (s := { resolver, directory }) hstart
    (by rwa [Nat.zero_add])
  rw [hs] at h
  exact h.2.identified h.1.toReady

/-- A union is derived before and after one of its loads is made to wait for a store. One statement
fails. -/
def awaitedUnion : List Event :=
  let column (name : String) : Yaml.Value := .mapping [(.string "col", .string name)]
  [.step (.register (.load "A" "/in" (some [.mk "t" "tuple" (some [.mk "x" "int" none])]))),
    .step (.register (.load "B" "/out" (some [.mk "t" "tuple" none]))),
    .step (.register (.forEach "C" "A" [{ expr := column "t", flatten := true },
      { expr := .int 1 }])),
    .step (.register (.forEach "D" "A" [{ expr := column "y" }])),
    .step (.register (.union "U" ["A", "B"])), .request ⟨3⟩,
    .step (.register (.store "C" "/out")), .step .compileBatch, .request ⟨3⟩]

theorem awaitedUnion_identified :
    (Event.runAll awaitedUnion { resolver := .path, directory := "/" }).plan.ownUids =
        [⟨1⟩, ⟨2⟩, ⟨3⟩, ⟨4⟩, ⟨5⟩, ⟨6⟩] ∧
      ∃ n, (Event.runAll awaitedUnion { resolver := .path, directory := "/" }).plan.Identified n :=
  ⟨by decide +kernel, identified_of_history (by decide) rfl⟩

end Session

end Dataflow

import Dataflow.Engine.Run
import Dataflow.Proofs.Plan.Edit
import Dataflow.Proofs.Plan.Layout
import Dataflow.Proofs.Plan.Requests

/-!
# What operators make of their inputs

An operator fails as a whole if a formula of it has no value on some row. To follow rows through a
plan in which a filter may fail that does not fail in another plan, every operator is given a
`Meaning` that is always defined: a row on which a formula fails counts as dropped. Evaluating an
operator either fails or ends with the rows of its meaning (`evalOperation_eq_ok`), and `Succeeds`
says when it does not fail.
-/

namespace Dataflow

open Engine

/-- The layout of the rows of an operator, as far as it can be told, and the rows. -/
structure Meaning where
  layout : Option Schema
  rows : Relation
deriving Inhabited

/-- How wide the rows are, if that can be told. -/
def Meaning.width? (m : Meaning) : Option Nat := m.layout.map List.length

namespace Relation

/-- Whether a filter keeps the row. -/
def keeps (f : Formula) (row : Row) : Bool := (f.holds [row]).toOption.getD false

/-- The rows that the items generate from a row; none if one of them fails. -/
def generated (items : List Item) (row : Row) : Relation :=
  (generateRow row items [[]]).toOption.getD []

theorem keeps_eq_true {f : Formula} {row : Row} :
    keeps f row = true ↔ f.holds [row] = .ok true := by
  unfold keeps
  cases f.holds [row] with
  | error e => simp [Except.toOption]
  | ok k => simp [Except.toOption]

theorem filter_eq_ok {f : Formula} : ∀ {rel made : Relation}, filter f rel = .ok made ↔
    (∀ row ∈ rel, ∃ k, f.holds [row] = .ok k) ∧ made = List.filter (keeps f) rel
  | [], made => by simp [filter, eq_comm]
  | row :: rest, made => by
    unfold filter
    rw [Pass.except_bind_eq_ok]
    simp only [Pass.except_bind_eq_ok, @filter_eq_ok _ rest, List.forall_mem_cons]
    constructor
    · rintro ⟨k, hk, kept, ⟨hrest, rfl⟩, h⟩
      refine ⟨⟨⟨k, hk⟩, hrest⟩, ?_⟩
      have hkeeps : keeps f row = k := by simp [keeps, hk, Except.toOption]
      rw [List.filter_cons, hkeeps]
      exact (Except.ok.inj h).symm
    · rintro ⟨⟨⟨k, hk⟩, hrest⟩, rfl⟩
      refine ⟨k, hk, _, ⟨hrest, rfl⟩, ?_⟩
      have hkeeps : keeps f row = k := by simp [keeps, hk, Except.toOption]
      rw [List.filter_cons, hkeeps]
      rfl

theorem generate_eq_ok {items : List Item} : ∀ {rel made : Relation},
    generate items rel = .ok made ↔ (∀ row ∈ rel, ∃ out, generateRow row items [[]] = .ok out) ∧
      made = rel.flatMap (generated items)
  | [], made => by simp [generate, eq_comm]
  | row :: rest, made => by
    unfold generate
    rw [Pass.except_bind_eq_ok]
    simp only [Pass.except_bind_eq_ok, @generate_eq_ok _ rest, List.forall_mem_cons]
    constructor
    · rintro ⟨out, hout, _, ⟨hrest, rfl⟩, h⟩
      refine ⟨⟨⟨out, hout⟩, hrest⟩, ?_⟩
      have hgen : generated items row = out := by simp [generated, hout, Except.toOption]
      rw [List.flatMap_cons, hgen]
      exact (Except.ok.inj h).symm
    · rintro ⟨⟨⟨out, hout⟩, hrest⟩, rfl⟩
      refine ⟨out, hout, _, ⟨hrest, rfl⟩, ?_⟩
      have hgen : generated items row = out := by simp [generated, hout, Except.toOption]
      rw [List.flatMap_cons, hgen]
      rfl

end Relation

namespace Operation

/-- The rows of the only input. -/
def inputRows : List Meaning → Relation
  | [] => []
  | m :: _ => m.rows

/-- The rows that come out of an operation; a row on which a formula fails is dropped. -/
def rows (s : Storage) : Operation → List Meaning → Relation
  | .load l, _ => (Engine.load l s).toOption.getD []
  | .filter f, ms | .splitOutput f, ms => List.filter (Relation.keeps f) (inputRows ms)
  | .forEach items, ms => (inputRows ms).flatMap (Relation.generated items)
  | .join t keys, ms =>
    (Relation.join t keys (ms.map Meaning.rows) (ms.map Meaning.width?)).toOption.getD []
  | .cross, ms => Relation.cross (ms.map Meaning.rows)
  | .union _, ms => (ms.map Meaning.rows).flatten
  | .distinct, ms => Relation.distinct (inputRows ms)
  | .sort keys, ms => (Relation.sort keys (inputRows ms)).toOption.getD []
  | .limit n, ms => (inputRows ms).take n
  | .store _, ms | .split, ms => inputRows ms

/-- The operation does not fail. -/
def Succeeds (s : Storage) : Operation → List Meaning → Prop
  | .load l, _ => ∃ rows, Engine.load l s = .ok rows
  | .store location, _ => location.isEmpty = false
  | .filter f, ms | .splitOutput f, ms => ∀ row ∈ inputRows ms, ∃ k, f.holds [row] = .ok k
  | .forEach items, ms =>
    ∀ row ∈ inputRows ms, ∃ out, Relation.generateRow row items [[]] = .ok out
  | .join t keys, ms =>
    ∃ rows, Relation.join t keys (ms.map Meaning.rows) (ms.map Meaning.width?) = .ok rows
  | .sort keys, ms => ∃ rows, Relation.sort keys (inputRows ms) = .ok rows
  | .cross, _ | .union _, _ | .distinct, _ | .split, _ | .limit _, _ => True

/-- The storage after the operation ended with the given rows. -/
def written (s : Storage) : Operation → Relation → Storage
  | .store location, rows => s.insert location rows
  | _, _ => s

/-- What comes out of an operation, given what comes out of its inputs. -/
def meaning (s : Storage) (o : Operation) (ms : List Meaning) : Meaning :=
  ⟨(o.layout? (ms.map Meaning.layout)).join, o.rows s ms⟩

@[simp] theorem rows_withoutUids (s : Storage) (o : Operation) (ms : List Meaning) :
    o.withoutUids.rows s ms = o.rows s ms := by
  cases o <;> rfl

@[simp] theorem layout?_withoutUids (o : Operation) (inputs : Expr.Inputs) :
    o.withoutUids.layout? inputs = o.layout? inputs := by
  cases o <;> rfl

@[simp] theorem meaning_withoutUids (s : Storage) (o : Operation) (ms : List Meaning) :
    o.withoutUids.meaning s ms = o.meaning s ms := by
  rw [meaning, meaning, rows_withoutUids, layout?_withoutUids]

@[simp] theorem succeeds_withoutUids (s : Storage) (o : Operation) (ms : List Meaning) :
    o.withoutUids.Succeeds s ms ↔ o.Succeeds s ms := by
  cases o <;> rfl

end Operation

namespace Engine

variable {s s' : Storage} {o : Operation} {ms : List Meaning} {p : Prepared} {id : NodeId}
  {made : Relation}

theorem ofResult_eq_ok {β : Type} {r : Result β} {b : β} :
    RunResult.ofResult r = .ok b ↔ r = .ok b := by
  cases r <;> simp [RunResult.ofResult]

/-- The result, or nothing if there is none. -/
theorem eq_ok_iff_getD {β ε : Type} {r : Except ε (List β)} {l : List β} :
    r = .ok l ↔ (∃ l', r = .ok l') ∧ l = r.toOption.getD [] := by
  cases r <;> simp [Except.toOption, eq_comm]

theorem single_eq_ok (h : ms ≠ []) :
    single (ms.map Meaning.rows) = .ok (Operation.inputRows ms) := by
  cases ms with
  | nil => exact absurd rfl h
  | cons m ms => rfl

theorem store_eq_ok {location : String} :
    store location made s = .ok s' ↔ location.isEmpty = false ∧ s' = s.insert location made := by
  unfold store Storage.Handle.pointAt
  cases hl : location.isEmpty with
  | true => simp
  | false => simp [Storage.Handle.write, Storage.Handle.current, bind, Except.bind, eq_comm]

/-- Only what is at its location matters to a load. -/
theorem load_congr {l : Load} (h : s.get? l.location = s'.get? l.location) :
    Engine.load l s = Engine.load l s' := by
  unfold Engine.load Storage.Handle.pointAt
  split <;> simp [Storage.Handle.checkSchema, Storage.Handle.read, Storage.Handle.current, h,
    bind, Except.bind]

/-- Loads apart, operations do the same on all storages. -/
theorem operation_congr (h : ∀ l, o = .load l → s.get? l.location = s'.get? l.location) :
    o.meaning s ms = o.meaning s' ms ∧ (o.Succeeds s ms ↔ o.Succeeds s' ms) := by
  cases o with
  | load l =>
    simp only [Operation.meaning, Operation.rows, Operation.Succeeds, load_congr (h l rfl),
      and_self]
  | _ => exact ⟨rfl, .rfl⟩

/-- Most operations leave the storage as it is. -/
theorem beside_eq_ok {r : RunResult Relation} :
    (do return (← r, s)) = (.ok (made, s') : RunResult (Relation × Storage)) ↔
      r = .ok made ∧ s' = s := by
  rw [Pass.except_bind_eq_ok]
  simp [eq_comm]

/-- An operation that is evaluated on rows of its inputs either fails or ends with the rows of its
meaning. -/
theorem evalOperation_eq_ok (hone : o.type ≠ .load → ms ≠ [])
    (hwidths : ∀ t keys, o = .join t keys →
      (p.plan.predecessors id).map p.width? = ms.map Meaning.width?) :
    evalOperation p id o (ms.map Meaning.rows) s = .ok (made, s') ↔
      o.Succeeds s ms ∧ made = o.rows s ms ∧ s' = o.written s made := by
  have hsingle : o.type ≠ .load →
      single (ms.map Meaning.rows) = .ok (Operation.inputRows ms) := fun h => single_eq_ok (hone h)
  unfold evalOperation
  cases o with
  | load l =>
    rw [beside_eq_ok, eq_ok_iff_getD, and_assoc]
    cases h : Engine.load l s <;>
      simp [RunResult.ofResult, Operation.Succeeds, Operation.rows, Operation.written, h,
        Except.toOption]
  | store location =>
    dsimp only
    rw [hsingle (by simp [Operation.type]), Pass.except_ok_bind, Pass.except_bind_eq_ok]
    simp only [ofResult_eq_ok, store_eq_ok, Pass.except_pure, Except.ok.injEq, Prod.mk.injEq]
    constructor
    · rintro ⟨_, ⟨hl, rfl⟩, rfl, rfl⟩
      exact ⟨hl, rfl, rfl⟩
    · rintro ⟨hl, rfl, rfl⟩
      exact ⟨_, ⟨hl, rfl⟩, rfl, rfl⟩
  | filter f =>
    dsimp only
    rw [hsingle (by simp [Operation.type]), Pass.except_ok_bind, beside_eq_ok,
      Relation.filter_eq_ok, and_assoc]
    rfl
  | splitOutput f =>
    dsimp only
    rw [hsingle (by simp [Operation.type]), Pass.except_ok_bind, beside_eq_ok,
      Relation.filter_eq_ok, and_assoc]
    rfl
  | forEach items =>
    dsimp only
    rw [hsingle (by simp [Operation.type]), Pass.except_ok_bind, beside_eq_ok,
      Relation.generate_eq_ok, and_assoc]
    rfl
  | join t keys =>
    dsimp only
    rw [hwidths t keys rfl, beside_eq_ok, eq_ok_iff_getD, and_assoc]
    rfl
  | sort keys =>
    dsimp only
    rw [hsingle (by simp [Operation.type]), Pass.except_ok_bind, beside_eq_ok, eq_ok_iff_getD,
      and_assoc]
    rfl
  | split =>
    rw [beside_eq_ok, hsingle (by simp [Operation.type])]
    simp [Operation.Succeeds, Operation.rows, Operation.written, eq_comm]
  | distinct =>
    dsimp only
    rw [hsingle (by simp [Operation.type])]
    simp [Operation.Succeeds, Operation.rows, Operation.written, eq_comm]
  | limit n =>
    dsimp only
    rw [hsingle (by simp [Operation.type])]
    simp [Operation.Succeeds, Operation.rows, Operation.written, eq_comm]
  | cross => simp [Operation.Succeeds, Operation.rows, Operation.written, eq_comm]
  | union chosen => simp [Operation.Succeeds, Operation.rows, Operation.written, eq_comm]

end Engine

/-!
## The meaning of a plan

On a given storage, a plan gives every operator a meaning: the one that its operation makes of the
meanings of its inputs. These equations have a solution (`exists_solves`), since plans have no
cycles. Names, identities and derived schemas do not occur in them, which makes them the measure of
rewriting; derived schemas have the layouts of the solution (`Solves.layout_of_memo`).
-/

namespace Plan

variable {p q : Plan} {s s' : Storage} {d : NodeId → Meaning} {x z : NodeId} {op : Operator}

/-- The meanings satisfy the equations of the plan. -/
def Solves (s : Storage) (p : Plan) (d : NodeId → Meaning) : Prop :=
  ∀ z op, p.core? z = some op → d z = op.operation.meaning s ((p.dataInputs z).map d)

theorem Solves.alike (hd : Solves s p d) (h : Alike p q) : Solves s q d := by
  intro z op hop
  rw [h.core?] at hop
  rw [h.dataInputs]
  exact hd z op hop

theorem Solves.operator (hd : Solves s p d) (hop : p.operator? z = some op) :
    d z = op.operation.meaning s ((p.dataInputs z).map d) := by
  have := hd z op.core (by rw [core?, hop]; rfl)
  rwa [Operator.operation_core, Operation.meaning_withoutUids] at this

/-! ### A solution -/

/-- The meanings as far as they are determined by so many levels of inputs. -/
def meaningTo (s : Storage) (p : Plan) : Nat → NodeId → Meaning
  | 0, _ => default
  | n + 1, z =>
    match p.core? z with
    | some op => op.operation.meaning s ((p.dataInputs z).map (meaningTo s p n))
    | none => default

/-- More levels than there are above an operator add nothing. -/
theorem meaningTo_of_rank_lt (hwf : p.graph.WellFormed) {rank : NodeId → Nat}
    (hrank : ∀ a b, b ∈ p.graph.successors a → rank a < rank b) :
    ∀ (n m : Nat) (z : NodeId), rank z < n → rank z < m → meaningTo s p n z = meaningTo s p m z
  | 0, _, _, h, _ => absurd h (Nat.not_lt_zero _)
  | _, 0, _, _, h => absurd h (Nat.not_lt_zero _)
  | n + 1, m + 1, z, hn, hm => by
    have hinputs : (p.dataInputs z).map (meaningTo s p n) =
        (p.dataInputs z).map (meaningTo s p m) := List.map_congr_left fun x hx => by
      have := rank_of_mem_dataInputs hwf hrank hx
      exact meaningTo_of_rank_lt hwf hrank n m x (by omega) (by omega)
    rw [meaningTo, meaningTo, hinputs]

theorem exists_solves (s : Storage) (hwf : p.graph.WellFormed) (hac : p.graph.Acyclic) :
    ∃ d, Solves s p d := by
  obtain ⟨rank, hrank⟩ := hac
  refine ⟨fun z => meaningTo s p (rank z + 1) z, fun z op hop => ?_⟩
  have hinputs : (p.dataInputs z).map (meaningTo s p (rank z)) =
      (p.dataInputs z).map fun x => meaningTo s p (rank x + 1) x :=
    List.map_congr_left fun x hx => meaningTo_of_rank_lt hwf hrank _ _ x
      (rank_of_mem_dataInputs hwf hrank hx) (Nat.lt_succ_self _)
  simp only [meaningTo, hop, hinputs]

/-- There is no other solution. -/
theorem Solves.unique {d' : NodeId → Meaning} (hwf : p.graph.WellFormed) (hac : p.graph.Acyclic)
    (hd : Solves s p d) (hd' : Solves s p d') : ∀ z, p.graph.contains z = true → d z = d' z := by
  obtain ⟨rank, hrank⟩ := hac
  intro z
  induction h : rank z using Nat.strongRecOn generalizing z with
  | _ n ih =>
    intro hz
    obtain ⟨op, hop⟩ := exists_operator? hz
    have hcore : p.core? z = some op.core := by rw [core?, hop]; rfl
    have hinputs : (p.dataInputs z).map d = (p.dataInputs z).map d' :=
      List.map_congr_left fun x hx =>
        ih (rank x) (h ▸ rank_of_mem_dataInputs hwf hrank hx) x rfl
          (contains_of_mem_dataInputs hwf hx)
    rw [hd z _ hcore, hd' z _ hcore, hinputs]

/-! ### Derived schemas -/

/-- A derived schema has the layout that the operator means. -/
theorem Solves.layout_of_memo (hd : Solves s p d) (hwf : p.graph.WellFormed)
    (hac : p.graph.Acyclic) (hp : p.Coherent) : ∀ {z : NodeId} {t : Option Schema},
    p.memoOf z = some t → (d z).layout = t.map Schema.blank ∧
      ∀ op, p.operator? z = some op →
        op.operation.layout? (((p.dataInputs z).map d).map Meaning.layout) =
          some (t.map Schema.blank) := by
  obtain ⟨rank, hrank⟩ := hac
  intro z
  induction h : rank z using Nat.strongRecOn generalizing z with
  | _ n ih =>
    intro t ht
    obtain ⟨op, hop, hmemo⟩ := Option.bind_eq_some_iff.mp ht
    obtain ⟨hknown, hderive⟩ := hp z op t hop hmemo
    -- the inputs have the layouts of their derived schemas
    have hinputs : ((p.dataInputs z).map d).map Meaning.layout =
        Operator.blanks ((p.dataInputs z).map fun x => (p.memoOf x).join) := by
      rw [Operator.blanks, Operator.strips, List.map_map, List.map_map]
      refine List.map_congr_left fun x hx => ?_
      rw [Function.comp_apply]
      obtain ⟨tx, htx⟩ := Option.isSome_iff_exists.mp (hknown x hx)
      rw [(ih (rank x) (h ▸ rank_of_mem_dataInputs hwf hrank hx) rfl htx).1, Function.comp_apply,
        htx]
      rfl
    have hlen : ((p.dataInputs z).map p.nameOf).length =
        ((p.dataInputs z).map fun x => (p.memoOf x).join).length := by simp
    have houtline := Operator.outlines_deriveSchema _ op hlen default
    rw [hderive default] at houtline
    have hlayout : op.operation.layout? (((p.dataInputs z).map d).map Meaning.layout) =
        some (t.map Schema.blank) := by
      rw [hinputs, Operation.layout?_blanks]
      exact houtline
    refine ⟨?_, fun op' hop' => ?_⟩
    · rw [hd.operator hop, Operation.meaning, hlayout]
      rfl
    · obtain rfl : op = op' := Option.some.inj (hop.symm.trans hop')
      exact hlayout

/-- No operator reads a column that its input is known not to have. -/
def InRange (p : Plan) (d : NodeId → Meaning) : Prop :=
  ∀ z op, p.core? z = some op →
    (op.operation.layout? (((p.dataInputs z).map d).map Meaning.layout)).isSome

/-- Columns are in range if all schemas can be derived. -/
theorem Solves.inRange (hd : Solves s p d) (hwf : p.graph.WellFormed) (hac : p.graph.Acyclic)
    (hp : p.Coherent) (hall : ∀ z, p.graph.contains z = true → (p.memoOf z).isSome) :
    p.InRange d := by
  intro z op hop
  obtain ⟨op', hop', rfl⟩ := Option.map_eq_some_iff.mp hop
  obtain ⟨t, ht⟩ := Option.isSome_iff_exists.mp (hall z (contains_of_operator? hop'))
  rw [Operator.operation_core, Operation.layout?_withoutUids,
    (hd.layout_of_memo hwf hac hp ht).2 op' hop']
  rfl

/-- Where columns are in range, a schema cannot be derived only because a name stands for two
columns. -/
theorem Solves.duplicate_of_stuck {e : Error} (hd : Solves s p d) (hp : p.Ready)
    (hin : p.InRange d) (h : Stuck p e) :
    ∃ z op n, p.core? z = some op ∧ e = .duplicateColumn n op.describe := by
  obtain ⟨q, hq, z, op, hop, hknown, hfail⟩ := h
  have hready := hp.extends hq
  have hcore : p.core? z = some op.core := by
    rw [← hq.alike.core?, core?, hop]
    rfl
  have hlen : ((q.dataInputs z).map q.nameOf).length =
      ((q.dataInputs z).map fun x => (q.memoOf x).join).length := by simp
  have houtline := Operator.outlines_deriveSchema _ op hlen q.uids
  rw [hfail] at houtline
  rcases houtline with ⟨n, rfl⟩ | hnone
  · exact ⟨z, op.core, n, hcore, by rw [Operator.describe_core]⟩
  · -- the derived schemas of the inputs have the layouts that are in range
    have hsome := hin z op.core hcore
    have hinputs : ((p.dataInputs z).map d).map Meaning.layout =
        Operator.blanks ((q.dataInputs z).map fun x => (q.memoOf x).join) := by
      rw [Operator.blanks, Operator.strips, List.map_map, List.map_map, hq.alike.dataInputs]
      refine List.map_congr_left fun x hx => ?_
      rw [Function.comp_apply]
      obtain ⟨t, ht⟩ := Option.isSome_iff_exists.mp (hknown x (hq.alike.dataInputs.symm ▸ hx))
      rw [((hd.alike hq.alike).layout_of_memo hready.wellFormed hready.acyclic hready.coherent
        ht).1, Function.comp_apply, ht]
      rfl
    rw [Operator.operation_core, Operation.layout?_withoutUids, hinputs,
      Operation.layout?_blanks, hnone] at hsome
    simp at hsome

end Plan

end Dataflow

import Dataflow.Engine.Relation
import Dataflow.Plan.MapKeys
import Dataflow.Proofs.Plan.Edit
import Dataflow.Proofs.Plan.Requests

/-!
# What the analysis of map keys finds

The analysis asks for schemas and changes nothing else. It goes against the flow of rows, and what
it has found when it leaves an operator behind covers what the operator reads (`Provides`). Whatever
is found later only adds to it (`Needs.Le`). Of the plan, noting the keys changes the loads alone
(`Annotated`).
-/

namespace Dataflow

open Plan Dataflow.Graph

variable {p q r : Plan} {id x y z : NodeId} {op : Operator} {n n' n₁ : Needs} {u v : Uid}
  {e : Error}

/-! ## Requests -/

namespace Plan

theorem Asks.mapM_schema (h : p.Ready) : ∀ {l : List NodeId},
    (∀ x ∈ l, p.graph.contains x = true) → Asks p (l.mapM Plan.schema)
  | [], _ => by
    rw [List.mapM_nil]
    exact .pure h
  | x :: l, hl => by
    obtain ⟨hx, hl⟩ := List.forall_mem_cons.mp hl
    rw [List.mapM_cons]
    exact (Asks.schema h hx).bind fun _ _ _ _ _ => (Asks.mapM_schema h hl).bind fun _ _ _ _ _ =>
      .pure h

theorem Asks.inputSchemas (h : p.Ready) : Asks p (inputSchemas id) := by
  unfold Plan.inputSchemas
  refine .read (fun q hq => by rw [hq.alike.dataInputs]) ?_
  exact Asks.mapM_schema h fun x hx => h.wellFormed.source (mem_predecessors_of_mem_dataInputs hx)

theorem Asks.needsOfUses (h : p.Ready) : ∀ {uses : List ColumnUse} {n : Needs},
    Asks p (needsOfUses id uses n)
  | [], _ => .pure h
  | .whole input i :: rest, n => by
    unfold Plan.needsOfUses
    refine (Asks.columnUid h).bind fun _ uid? _ _ _ => ?_
    cases uid? with
    | none => exact .pure h
    | some uid => exact Asks.needsOfUses h
  | .key input i key :: rest, n => by
    unfold Plan.needsOfUses
    refine (Asks.columnUid h).bind fun _ uid? _ _ _ => ?_
    cases uid? with
    | none => exact .pure h
    | some uid => exact Asks.needsOfUses h

theorem Asks.needsOfOperation (h : p.Ready) (hid : p.graph.contains id = true) :
    Asks p (needsOfOperation id n) := by
  obtain ⟨t, ht⟩ := exists_hasType hid
  unfold Plan.needsOfOperation
  refine .readResult (fun q hq => hq.typeOf ht) h.coherent ?_
  have hinputs : Asks p (do return needsOfInputs n (← Plan.inputSchemas id)) :=
    (Asks.inputSchemas h).bind fun _ _ _ _ _ => .pure h
  cases t with
  | store => exact hinputs
  | distinct => exact hinputs
  | union =>
    refine (Asks.schema h hid).bind fun _ s _ _ _ => ?_
    cases s with
    | none => exact .pure h
    | some s => exact .pure h
  | _ => exact .pure h

/-- The formulas of an operator do not depend on what was derived. -/
theorem Extends.formulas (h : Extends p q) (hop : p.operator? id = some op) :
    ∃ op', q.operator id = .ok op' ∧ op'.operation.formulas = op.operation.formulas := by
  obtain ⟨op', hop'⟩ := exists_operator? (show q.graph.contains id = true by
    rw [h.alike.contains]; exact contains_of_operator? hop)
  refine ⟨op', operator_eq_ok.mpr hop', formulas_eq_of_core ?_⟩
  have := h.alike.core id
  rw [hop, hop'] at this
  exact Option.some.inj this

theorem Asks.needsOf (h : p.Ready) : ∀ {l : List NodeId} {n : Needs},
    (∀ z ∈ l, p.graph.contains z = true) → Asks p (needsOf l n)
  | [], _, _ => .pure h
  | id :: rest, n, hl => by
    obtain ⟨hid, hl⟩ := List.forall_mem_cons.mp hl
    unfold Plan.needsOf
    refine (Asks.needsOfOperation h hid).bind fun _ found _ _ _ => ?_
    cases found with
    | none => exact .pure h
    | some n =>
      obtain ⟨op, hop⟩ := exists_operator? hid
      have hsame : ∀ q, Extends p q → ∀ {β : Type} (k : List Formula → Edit β),
          (ofResult (q.operator id) >>= fun op => k op.operation.formulas) =
            k op.operation.formulas := fun q hq β k => by
        obtain ⟨op', hop', hformulas⟩ := hq.formulas hop
        rw [hop', ← hformulas]
        rfl
      dsimp only
      refine .read (fun q hq => ?_) ?_
      · rw [hsame q hq fun fs => Plan.needsOfUses id (fs.flatMap Formula.columnUses) n >>= _,
          hsame p (.refl h.coherent) fun fs =>
            Plan.needsOfUses id (fs.flatMap Formula.columnUses) n >>= _]
      · rw [hsame p (.refl h.coherent) fun fs =>
          Plan.needsOfUses id (fs.flatMap Formula.columnUses) n >>= _]
        refine (Asks.needsOfUses h).bind fun _ found _ _ _ => ?_
        cases found with
        | none => exact .pure h
        | some n => exact Asks.needsOf h hl

theorem Asks.keyTables (h : p.Ready) : ∀ {l : List NodeId},
    (∀ z ∈ l, p.graph.contains z = true) → Asks p (keyTables n l)
  | [], _ => .pure h
  | id :: rest, hl => by
    obtain ⟨hid, hl⟩ := List.forall_mem_cons.mp hl
    obtain ⟨t, ht⟩ := exists_hasType hid
    unfold Plan.keyTables
    refine .readResult (fun q hq => hq.typeOf ht) h.coherent ?_
    by_cases hload : t ≠ .load
    · rw [if_pos hload]
      exact Asks.keyTables h hl
    · rw [if_neg hload]
      refine (Asks.schema h hid).bind fun _ s _ _ _ => ?_
      cases s with
      | none => exact Asks.keyTables h hl
      | some s => exact (Asks.keyTables h hl).bind fun _ _ _ _ _ => .pure h

end Plan

/-! ## What is needed -/

namespace Needs

/-- The keys that are looked up in a column. -/
def keysOf (n : Needs) (u : Uid) : List String := (n.keys.lookup u).getD []

theorem mem_insertKey {k key : String} : ∀ {l : List String},
    k ∈ insertKey key l ↔ k = key ∨ k ∈ l
  | [] => by simp [insertKey]
  | a :: l => by
    unfold insertKey
    split
    · simp
    split
    · rename_i heq
      simp [heq]
    · simp only [List.mem_cons, mem_insertKey (l := l)]
      tauto

theorem mem_foldl_insertKey {k : String} : ∀ {keys all : List String},
    k ∈ keys.foldl (fun all k => insertKey k all) all ↔ k ∈ keys ∨ k ∈ all
  | [], all => by simp
  | key :: keys, all => by
    rw [List.foldl_cons, mem_foldl_insertKey, mem_insertKey, List.mem_cons]
    tauto

theorem lookup_pair {α β : Type} [BEq α] [LawfulBEq α] [DecidableEq α] {a b : α} {c : β}
    {l : List (α × β)} : ((b, c) :: l).lookup a = if a = b then some c else l.lookup a := by
  rw [List.lookup_cons]
  by_cases h : a = b
  · simp [h]
  · rw [show (a == b) = false by simpa using h, if_neg h]

theorem lookup_addKeys (keys : List String) : ∀ l : List (Uid × List String),
    (addKeys u keys l).lookup v = if v = u then
      some (keys.foldl (fun all k => insertKey k all) ((l.lookup u).getD [])) else l.lookup v
  | [] => by
    rw [addKeys, lookup_pair]
    rfl
  | (w, all) :: l => by
    have ih := lookup_addKeys keys l
    rw [addKeys]
    by_cases hw : w = u
    · subst hw
      rw [if_pos rfl, lookup_pair, lookup_pair, lookup_pair, if_pos rfl, Option.getD_some]
      by_cases h : v = w <;> simp [h]
    · rw [if_neg hw, lookup_pair, lookup_pair, lookup_pair, ih, if_neg (Ne.symm hw)]
      by_cases h : v = w
      · subst h
        simp [hw]
      · simp [h]

theorem mem_keysOf_needKeys {k : String} {keys : List String} :
    k ∈ (n.needKeys u keys).keysOf v ↔ k ∈ n.keysOf v ∨ (v = u ∧ k ∈ keys) := by
  unfold keysOf needKeys
  rw [lookup_addKeys]
  by_cases h : v = u
  · subst h
    rw [if_pos rfl, Option.getD_some, mem_foldl_insertKey]
    tauto
  · simp [h]

/-- Whatever is needed of the one is needed of the other, too. -/
structure Le (n n' : Needs) : Prop where
  whole : ∀ u ∈ n.whole, u ∈ n'.whole
  keys : ∀ u, ∀ k ∈ n.keysOf u, k ∈ n'.keysOf u

theorem Le.refl : n.Le n := ⟨fun _ h => h, fun _ _ h => h⟩

theorem Le.trans (h : n.Le n₁) (h' : n₁.Le n') : n.Le n' :=
  ⟨fun u hu => h'.whole u (h.whole u hu), fun u k hk => h'.keys u k (h.keys u k hk)⟩

theorem le_needWhole {us : List Uid} : n.Le (n.needWhole us) :=
  ⟨fun _ hu => List.mem_append_right _ hu, fun _ _ hk => hk⟩

theorem le_needKeys {keys : List String} : n.Le (n.needKeys u keys) :=
  ⟨fun _ hu => hu, fun _ _ hk => mem_keysOf_needKeys.mpr (.inl hk)⟩

/-! ## Agreement as far as needed -/

/-- Two values of a column agree as far as it is needed: they are equal, or maps that have the same
under the keys that are looked up. -/
def Agree (n : Needs) (u : Uid) (a b : Value) : Prop :=
  a = b ∨ (u ∉ n.whole ∧ ∃ es fs, a = .map es ∧ b = .map fs ∧
    ∀ k ∈ n.keysOf u, Value.lookup? es k = Value.lookup? fs k)

variable {a b : Value}

theorem Agree.mono (h : n.Le n') (hab : n'.Agree u a b) : n.Agree u a b := by
  rcases hab with rfl | ⟨hu, es, fs, rfl, rfl, hk⟩
  · exact .inl rfl
  · exact .inr ⟨fun hm => hu (h.whole u hm), es, fs, rfl, rfl, fun k hm => hk k (h.keys u k hm)⟩

theorem Agree.eq_of_whole (hab : n.Agree u a b) (hu : u ∈ n.whole) : a = b :=
  hab.resolve_right fun h => h.1 hu

theorem Agree.lookupValue {k : String} (hab : n.Agree u a b) (hk : k ∈ n.keysOf u) :
    Formula.lookupValue k a = Formula.lookupValue k b := by
  rcases hab with rfl | ⟨-, es, fs, rfl, rfl, h⟩
  · rfl
  · rw [Formula.lookupValue, Formula.lookupValue, h k hk]

theorem lookup_filter_keys {keys : List String} {k : String} (hk : k ∈ keys)
    (entries : List (String × Value)) :
    (entries.filter fun (k, _) => keys.contains k).lookup k = entries.lookup k := by
  induction entries with
  | nil => rfl
  | cons entry entries ih =>
    obtain ⟨k', v⟩ := entry
    rw [List.filter_cons, lookup_pair]
    by_cases h : k = k'
    · subst h
      simp [hk]
    · rw [if_neg h, ← ih]
      cases hc : keys.contains k' with
      | true => rw [if_pos hc, lookup_pair, if_neg h]
      | false => rw [if_neg (by simpa using hc)]

/-- A map restricted to keys agrees with itself if no others are needed. -/
theorem agree_restrictMap {keys : List String} (hu : u ∉ n.whole)
    (hkeys : ∀ k ∈ n.keysOf u, k ∈ keys) (a : Value) :
    n.Agree u a (Relation.restrictMap keys a) := by
  cases a with
  | map es =>
    exact .inr ⟨hu, es, _, rfl, rfl, fun k hk => (lookup_filter_keys (hkeys k hk) es).symm⟩
  | _ => exact .inl rfl

/-! ## Unions -/

theorem le_foldl_needKeys (keys : List String) : ∀ (us : List Uid) (n : Needs),
    n.Le (us.foldl (fun n u => n.needKeys u keys) n) ∧
      ∀ u ∈ us, ∀ k ∈ keys, k ∈ (us.foldl (fun n u => n.needKeys u keys) n).keysOf u
  | [], n => ⟨.refl, by simp⟩
  | u :: us, n => by
    obtain ⟨hle, hall⟩ := le_foldl_needKeys keys us (n.needKeys u keys)
    refine ⟨le_needKeys.trans hle, List.forall_mem_cons.mpr ⟨fun k hk => ?_, hall⟩⟩
    exact hle.keys u k (mem_keysOf_needKeys.mpr (.inr ⟨rfl, hk⟩))

/-- What is needed of a column of a union is needed of the columns it comes from. -/
theorem throughUnion_spec {f : Field} : n.Le (n.throughUnion f) ∧
    ∀ u ∈ f.parents, ∀ a b, (n.throughUnion f).Agree u a b → n.Agree f.uid a b := by
  have hwhole : n.Le (if n.whole.contains f.uid then n.needWhole f.parents else n) := by
    split
    · exact le_needWhole
    · exact .refl
  have hle : (if n.whole.contains f.uid then n.needWhole f.parents else n).Le
      (n.throughUnion f) ∧ ∀ u ∈ f.parents, ∀ k ∈ n.keysOf f.uid,
        k ∈ (n.throughUnion f).keysOf u := by
    have hkeys : (if n.whole.contains f.uid then n.needWhole f.parents else n).keys = n.keys := by
      split <;> rfl
    unfold throughUnion keysOf
    dsimp only
    rw [hkeys]
    cases hlookup : n.keys.lookup f.uid with
    | none => exact ⟨.refl, by simp⟩
    | some keys => exact le_foldl_needKeys keys _ _
  refine ⟨hwhole.trans hle.1, fun u hu a b hab => ?_⟩
  rcases hab with rfl | ⟨hnot, es, fs, rfl, rfl, hk⟩
  · exact .inl rfl
  · refine .inr ⟨fun hm => hnot (hle.1.whole u ?_), es, fs, rfl, rfl, fun k hkf =>
      hk k (hle.2 u hu k hkf)⟩
    rw [if_pos (by simpa using hm)]
    exact List.mem_append_left _ hu

theorem foldl_throughUnion_spec : ∀ {s : Schema} {n : Needs}, n.Le (s.foldl throughUnion n) ∧
    ∀ f ∈ s, ∀ u ∈ f.parents, ∀ a b, (s.foldl throughUnion n).Agree u a b → n.Agree f.uid a b
  | [], n => ⟨.refl, by simp⟩
  | f :: s, n => by
    obtain ⟨hle, hagree⟩ := throughUnion_spec (n := n) (f := f)
    obtain ⟨hle', hall⟩ := foldl_throughUnion_spec (s := s) (n := n.throughUnion f)
    refine ⟨hle.trans hle', List.forall_mem_cons.mpr ⟨fun u hu a b hab => ?_, fun g hg u hu a b
      hab => ?_⟩⟩
    · exact hagree u hu a b (hab.mono hle')
    · exact (hall g hg u hu a b hab).mono hle

end Needs

/-! ## What the analysis collects -/

namespace Plan

/-- What is needed covers a use of a column. -/
def Meets (p : Plan) (id : NodeId) (n : Needs) : ColumnUse → Prop
  | .whole input i => ∃ u, p.ColumnHas id input i u ∧ u ∈ n.whole
  | .key input i k => ∃ u, p.ColumnHas id input i u ∧ k ∈ n.keysOf u

theorem Meets.mono {use : ColumnUse} (h : p.Meets id n use) (hq : Extends p q) (hn : n.Le n') :
    q.Meets id n' use := by
  cases use with
  | whole input i =>
    obtain ⟨u, hcol, hu⟩ := h
    exact ⟨u, hcol.extends hq, hn.whole u hu⟩
  | key input i k =>
    obtain ⟨u, hcol, hk⟩ := h
    exact ⟨u, hcol.extends hq, hn.keys u k hk⟩

/-- Going through an operator has added what the operator reads, and what it hands through. -/
structure Provides (p : Plan) (id : NodeId) (n n' : Needs) : Prop where
  le : n.Le n'
  uses : ∀ op, p.core? id = some op → ∀ f ∈ op.operation.formulas, ∀ use ∈ f.columnUses,
    p.Meets id n' use
  whole : ∀ t, p.HasType id t → t = .store ∨ t = .distinct → ∀ x ∈ p.dataInputs id,
    ∃ s, p.memoOf x = some (some s) ∧ ∀ u ∈ Schema.allUids s, u ∈ n'.whole
  union : p.HasType id .union → ∃ s, p.memoOf id = some (some s) ∧
    ∀ f ∈ s, ∀ u ∈ f.parents, ∀ a b, n'.Agree u a b → n.Agree f.uid a b

/-- Going through operators, one after the other, leads from one to the other. -/
inductive Gathers (p : Plan) : List NodeId → Needs → Needs → Prop
  | nil {n : Needs} : Gathers p [] n n
  | cons {z : NodeId} {l : List NodeId} {n n₁ n' : Needs} : Provides p z n n₁ →
      Gathers p l n₁ n' → Gathers p (z :: l) n n'

theorem Provides.extends (h : Provides p id n n') (hq : Extends p q) : Provides q id n n' where
  le := h.le
  uses op hop f hf use hu := by
    rw [hq.alike.core?] at hop
    exact (h.uses op hop f hf use hu).mono hq .refl
  whole t ht hts x hx := by
    rw [hq.alike.dataInputs] at hx
    obtain ⟨s, hs, hall⟩ := h.whole t (hq.alike.hasType ht) hts x hx
    exact ⟨s, hq.memo x _ hs, hall⟩
  union ht := by
    obtain ⟨s, hs, hall⟩ := h.union (hq.alike.hasType ht)
    exact ⟨s, hq.memo id _ hs, hall⟩

theorem Gathers.le {l : List NodeId} (h : Gathers p l n n') : n.Le n' := by
  induction h with
  | nil => exact .refl
  | cons hstep _ ih => exact hstep.le.trans ih

theorem Gathers.extends {l : List NodeId} (h : Gathers p l n n') (hq : Extends p q) :
    Gathers q l n n' := by
  induction h with
  | nil => exact .nil
  | cons hstep _ ih => exact .cons (hstep.extends hq) ih

theorem needsOfUses_eq_ok : ∀ {uses : List ColumnUse} {n : Needs} {p : Plan}, p.Coherent →
    needsOfUses id uses n p = .ok (some n') q → Extends p q ∧ n.Le n' ∧
      ∀ use ∈ uses, q.Meets id n' use
  | [], n, p, hp, h => by
    obtain ⟨rfl, rfl⟩ : n = n' ∧ p = q := by simpa [needsOfUses] using h
    exact ⟨.refl hp, .refl, by simp⟩
  | .whole input i :: rest, n, p, hp, h => by
    unfold needsOfUses at h
    obtain ⟨uid?, p₁, h₁, h⟩ := Pass.bind_eq_ok.mp h
    cases uid? with
    | none => simp at h
    | some uid =>
      obtain ⟨hext₁, hcol⟩ := columnUid_eq_ok hp h₁
      obtain ⟨hext, hle, hall⟩ := needsOfUses_eq_ok hext₁.coherent h
      refine ⟨hext₁.trans hext, Needs.le_needWhole.trans hle, List.forall_mem_cons.mpr
        ⟨⟨uid, hcol.extends hext, hle.whole uid (by simp [Needs.needWhole])⟩, hall⟩⟩
  | .key input i key :: rest, n, p, hp, h => by
    unfold needsOfUses at h
    obtain ⟨uid?, p₁, h₁, h⟩ := Pass.bind_eq_ok.mp h
    cases uid? with
    | none => simp at h
    | some uid =>
      obtain ⟨hext₁, hcol⟩ := columnUid_eq_ok hp h₁
      obtain ⟨hext, hle, hall⟩ := needsOfUses_eq_ok hext₁.coherent h
      refine ⟨hext₁.trans hext, Needs.le_needKeys.trans hle, List.forall_mem_cons.mpr
        ⟨⟨uid, hcol.extends hext, hle.keys uid key ?_⟩, hall⟩⟩
      exact Needs.mem_keysOf_needKeys.mpr (.inr ⟨rfl, by simp⟩)

theorem needsOfInputs_eq_some : ∀ {inputs : List (Option Schema)} {n : Needs},
    needsOfInputs n inputs = some n' → n.Le n' ∧
      ∀ input ∈ inputs, ∃ s, input = some s ∧ ∀ u ∈ Schema.allUids s, u ∈ n'.whole
  | [], n, h => by
    obtain rfl : n = n' := by simpa [needsOfInputs] using h
    exact ⟨.refl, by simp⟩
  | none :: rest, n, h => by simp [needsOfInputs] at h
  | some s :: rest, n, h => by
    obtain ⟨hle, hall⟩ := needsOfInputs_eq_some (n := n.needWhole (Schema.allUids s)) h
    exact ⟨Needs.le_needWhole.trans hle, List.forall_mem_cons.mpr
      ⟨⟨s, rfl, fun u hu => hle.whole u (by simp [Needs.needWhole, hu])⟩, hall⟩⟩

theorem mapM_schema_eq_ok : ∀ {l : List NodeId} {schemas : List (Option Schema)} {p : Plan},
    p.Coherent → l.mapM schema p = .ok schemas q →
    Extends p q ∧ ∀ x ∈ l, ∃ s ∈ schemas, q.memoOf x = some s
  | [], schemas, p, hp, h => by
    obtain ⟨rfl, rfl⟩ : [] = schemas ∧ p = q := by simpa using h
    exact ⟨.refl hp, by simp⟩
  | x :: l, schemas, p, hp, h => by
    rw [List.mapM_cons] at h
    obtain ⟨s, p₁, h₁, h⟩ := Pass.bind_eq_ok.mp h
    obtain ⟨rest, p₂, h₂, h⟩ := Pass.bind_eq_ok.mp h
    obtain ⟨rfl, rfl⟩ : s :: rest = schemas ∧ q = p₂ := by simpa [eq_comm] using h
    obtain ⟨hext₁, hs⟩ := schema_eq_ok hp h₁
    obtain ⟨hext, hall⟩ := mapM_schema_eq_ok hext₁.coherent h₂
    refine ⟨hext₁.trans hext, List.forall_mem_cons.mpr
      ⟨⟨s, by simp, hext.memo x s hs⟩, fun y hy => ?_⟩⟩
    obtain ⟨t, ht, hy⟩ := hall y hy
    exact ⟨t, List.mem_cons_of_mem _ ht, hy⟩

theorem inputSchemas_eq_ok {schemas : List (Option Schema)} (hp : p.Coherent)
    (h : inputSchemas id p = .ok schemas q) :
    Extends p q ∧ ∀ x ∈ p.dataInputs id, ∃ s ∈ schemas, q.memoOf x = some s := by
  unfold inputSchemas at h
  rw [Pass.bind_of_ok Pass.get_apply] at h
  exact mapM_schema_eq_ok hp h

theorem needsOfOperation_eq_ok (hp : p.Coherent)
    (h : needsOfOperation id n p = .ok (some n') q) : Extends p q ∧ n.Le n' ∧
      (∀ t, p.HasType id t → t = .store ∨ t = .distinct → ∀ x ∈ p.dataInputs id,
        ∃ s, q.memoOf x = some (some s) ∧ ∀ u ∈ Schema.allUids s, u ∈ n'.whole) ∧
      (p.HasType id .union → ∃ s, q.memoOf id = some (some s) ∧
        ∀ f ∈ s, ∀ u ∈ f.parents, ∀ a b, n'.Agree u a b → n.Agree f.uid a b) := by
  unfold needsOfOperation at h
  rw [Pass.bind_of_ok Pass.get_apply] at h
  obtain ⟨t, p₁, htype, h⟩ := Pass.bind_eq_ok.mp h
  obtain ⟨hres, rfl⟩ := ofResult_eq_ok.mp htype
  have ht := typeOf_eq_ok.mp hres
  have hinputs : ∀ {found : Option Needs}, (do return needsOfInputs n (← inputSchemas id)) p =
      EStateM.Result.ok found q → found = some n' → Extends p q ∧ n.Le n' ∧
        ∀ x ∈ p.dataInputs id, ∃ s, q.memoOf x = some (some s) ∧
          ∀ u ∈ Schema.allUids s, u ∈ n'.whole := fun hrun hfound => by
    obtain ⟨schemas, p₂, hs, hrun⟩ := Pass.bind_eq_ok.mp hrun
    obtain ⟨hneeds, rfl⟩ : needsOfInputs n schemas = some n' ∧ q = p₂ := by
      simpa [hfound, eq_comm] using hrun
    obtain ⟨hext, hmemo⟩ := inputSchemas_eq_ok hp hs
    obtain ⟨hle, hall⟩ := needsOfInputs_eq_some hneeds
    refine ⟨hext, hle, fun x hx => ?_⟩
    obtain ⟨s, hmem, hx⟩ := hmemo x hx
    obtain ⟨s', rfl, hs'⟩ := hall s hmem
    exact ⟨s', hx, hs'⟩
  have hothers : ∀ t', t' ≠ t → p.HasType id t' → False := fun t' hne ht' =>
    hne (ht'.unique ht)
  cases t with
  | store =>
    obtain ⟨hext, hle, hall⟩ := hinputs h rfl
    exact ⟨hext, hle, fun _ _ _ => hall, fun hu => (hothers .union (by simp) hu).elim⟩
  | distinct =>
    obtain ⟨hext, hle, hall⟩ := hinputs h rfl
    exact ⟨hext, hle, fun _ _ _ => hall, fun hu => (hothers .union (by simp) hu).elim⟩
  | union =>
    obtain ⟨s, p₂, hs, h⟩ := Pass.bind_eq_ok.mp h
    obtain ⟨hext, hmemo⟩ := schema_eq_ok hp hs
    cases s with
    | none => simp at h
    | some s =>
      obtain ⟨rfl, rfl⟩ : s.foldl Needs.throughUnion n = n' ∧ p₂ = q := by simpa using h
      obtain ⟨hle, hall⟩ := Needs.foldl_throughUnion_spec (s := s) (n := n)
      refine ⟨hext, hle, fun t' ht' hts => ?_, fun _ => ⟨s, hmemo, hall⟩⟩
      rcases hts with rfl | rfl <;> exact (hothers _ (by simp) ht').elim
  | _ =>
    obtain ⟨rfl, rfl⟩ : n = n' ∧ p = q := by simpa using h
    refine ⟨.refl hp, .refl, fun t' ht' hts => ?_, fun hu => (hothers _ (by simp) hu).elim⟩
    rcases hts with rfl | rfl <;> exact (hothers _ (by simp) ht').elim

theorem needsOf_eq_ok : ∀ {l : List NodeId} {n : Needs} {p : Plan}, p.Coherent →
    needsOf l n p = .ok (some n') q → Extends p q ∧ Gathers q l n n'
  | [], n, p, hp, h => by
    obtain ⟨rfl, rfl⟩ : n = n' ∧ p = q := by simpa [needsOf] using h
    exact ⟨.refl hp, .nil⟩
  | z :: l, n, p, hp, h => by
    unfold needsOf at h
    obtain ⟨found, p₁, h₁, h⟩ := Pass.bind_eq_ok.mp h
    cases found with
    | none => simp at h
    | some n₁ =>
      dsimp only at h
      rw [Pass.bind_of_ok Pass.get_apply] at h
      obtain ⟨op, p₂, hread, h⟩ := Pass.bind_eq_ok.mp h
      obtain ⟨hres, rfl⟩ := ofResult_eq_ok.mp hread
      have hop := operator_eq_ok.mp hres
      obtain ⟨found, p₃, h₃, h⟩ := Pass.bind_eq_ok.mp h
      cases found with
      | none => simp at h
      | some n₂ =>
        obtain ⟨hext₁, hle₁, hwhole, hunion⟩ := needsOfOperation_eq_ok hp h₁
        obtain ⟨hext₃, hle₃, huses⟩ := needsOfUses_eq_ok hext₁.coherent h₃
        obtain ⟨hext, hgathers⟩ := needsOf_eq_ok hext₃.coherent h
        have hprovides : Provides p₃ z n n₂ := by
          refine ⟨hle₁.trans hle₃, fun op' hop' f hf use hu => ?_, fun t ht hts x hx => ?_,
            fun ht => ?_⟩
          · obtain rfl : op.core = op' := by
              rw [hext₃.alike.core?, core?, hop] at hop'
              exact Option.some.inj hop'
            rw [Operator.operation_core, Operation.formulas_withoutUids] at hf
            exact huses use (List.mem_flatMap.mpr ⟨f, hf, hu⟩)
          · have hext := hext₁.trans hext₃
            rw [hext.alike.dataInputs] at hx
            obtain ⟨s, hs, hall⟩ := hwhole t (hext.alike.hasType ht) hts x hx
            exact ⟨s, hext₃.memo x _ hs, fun u hu => hle₃.whole u (hall u hu)⟩
          · obtain ⟨s, hs, hall⟩ := hunion ((hext₁.trans hext₃).alike.hasType ht)
            exact ⟨s, hext₃.memo z _ hs, fun f hf u hu a b hab =>
              hall f hf u hu a b (hab.mono hle₃)⟩
        exact ⟨(hext₁.trans hext₃).trans hext, .cons (hprovides.extends hext) hgathers⟩

theorem keyTables_eq_ok : ∀ {l : List NodeId} {tables : List (NodeId × KeyTable)} {p : Plan},
    p.Coherent → keyTables n l p = .ok tables q → Extends p q ∧
      ∀ x ∈ tables, p.HasType x.1 .load ∧
        ∃ s, q.memoOf x.1 = some (some s) ∧ x.2 = n.tableFor s
  | [], tables, p, hp, h => by
    obtain ⟨rfl, rfl⟩ : [] = tables ∧ p = q := by simpa [keyTables] using h
    exact ⟨.refl hp, by simp⟩
  | z :: l, tables, p, hp, h => by
    unfold keyTables at h
    rw [Pass.bind_of_ok Pass.get_apply] at h
    obtain ⟨t, p₁, htype, h⟩ := Pass.bind_eq_ok.mp h
    obtain ⟨hres, rfl⟩ := ofResult_eq_ok.mp htype
    have ht := typeOf_eq_ok.mp hres
    by_cases hload : t ≠ .load
    · rw [if_pos hload] at h
      exact keyTables_eq_ok hp h
    rw [if_neg hload] at h
    obtain rfl : t = .load := by simpa using hload
    obtain ⟨s, p₂, hs, h⟩ := Pass.bind_eq_ok.mp h
    obtain ⟨hext, hmemo⟩ := schema_eq_ok hp hs
    have hrest : ∀ {others : List (NodeId × KeyTable)}, keyTables n l p₂ = .ok others q →
        Extends p₂ q ∧ ∀ x ∈ others, p.HasType x.1 .load ∧
          ∃ s, q.memoOf x.1 = some (some s) ∧ x.2 = n.tableFor s := fun h => by
      obtain ⟨hext', hall⟩ := keyTables_eq_ok hext.coherent h
      exact ⟨hext', fun x hx => ⟨hext.alike.hasType (hall x hx).1, (hall x hx).2⟩⟩
    cases s with
    | none => exact ⟨hext.trans (hrest h).1, (hrest h).2⟩
    | some s =>
      obtain ⟨others, p₃, hothers, h⟩ := Pass.bind_eq_ok.mp h
      simp only [Pass.pure_apply, EStateM.Result.ok.injEq] at h
      obtain ⟨htables, hp₃⟩ := h
      rw [hp₃] at hothers
      obtain ⟨hext', hall⟩ := hrest hothers
      refine ⟨hext.trans hext', fun x hx => ?_⟩
      rw [← htables] at hx
      split at hx
      · exact hall x hx
      · rcases List.mem_cons.mp hx with rfl | hx
        · exact ⟨ht, s, hext'.memo z _ hmemo, rfl⟩
        · exact hall x hx

/-- What the analysis comes to on a plan without cycles. -/
theorem analyzeMapKeys_spec (h : p.Ready) : match analyzeMapKeys p with
    | .ok none q => Extends p q
    | .ok (some tables) q => Extends p q ∧ ∃ order n, p.graph.topologicalOrder = .ok order ∧
        Gathers q order.reverse {} n ∧ ∀ x ∈ tables, p.HasType x.1 .load ∧
          ∃ s, q.memoOf x.1 = some (some s) ∧ x.2 = n.tableFor s
    | .error e _ => Stuck p e := by
  obtain ⟨order, horder⟩ := exists_topologicalOrder h.wellFormed h.acyclic
  obtain ⟨-, hmem, -⟩ := topologicalOrder_spec h.wellFormed horder
  have hreverse : p.graph.reverseTopologicalOrder = .ok order.reverse := by
    unfold reverseTopologicalOrder
    rw [horder]
    rfl
  have hcontained : ∀ z ∈ order, p.graph.contains z = true := fun z hz => (hmem z).mp hz
  unfold analyzeMapKeys
  rw [Pass.bind_of_ok Pass.get_apply, hreverse,
    Pass.bind_of_ok (ofResult_eq_ok.mpr ⟨orError_eq_ok.mpr rfl, rfl⟩)]
  have hneeds := Asks.needsOf (n := {}) h (l := order.reverse)
    (fun z hz => hcontained z (List.mem_reverse.mp hz)) p (.refl h.coherent)
  cases hrun : needsOf order.reverse {} p with
  | error e q =>
    rw [Pass.bind_eq_error.mpr (.inl hrun)]
    exact hneeds.2 e q hrun
  | ok found q =>
    obtain ⟨hext, -⟩ := hneeds.1 found q hrun
    rw [Pass.bind_of_ok hrun]
    cases found with
    | none => exact hext
    | some n =>
      obtain ⟨-, hgathers⟩ := needsOf_eq_ok h.coherent hrun
      have htables := Asks.keyTables (n := n) h (l := order) hcontained q hext
      rw [List.reverse_reverse]
      dsimp only
      cases hrun' : keyTables n order q with
      | error e r =>
        rw [Pass.bind_eq_error.mpr (.inl hrun')]
        exact htables.2 e r hrun'
      | ok tables r =>
        rw [Pass.bind_of_ok hrun']
        obtain ⟨hext', hall⟩ := keyTables_eq_ok hext.coherent hrun'
        exact ⟨hext.trans hext', order, n, horder, hgathers.extends hext', fun x hx =>
          ⟨hext.alike.hasType (hall x hx).1, (hall x hx).2⟩⟩

/-! ## Noting the keys -/

/-- The keys that are noted on a load. -/
def keyTable? (p : Plan) (id : NodeId) : Option KeyTable :=
  (p.operator? id).bind fun op =>
    match op.operation with
    | .load l => l.requiredKeys
    | _ => none

theorem keyTable?_eq : p.keyTable? id = (p.core? id).bind fun op =>
    match op.operation with
    | .load l => l.requiredKeys
    | _ => none := by
  unfold keyTable? core?
  cases p.operator? id with
  | none => rfl
  | some op => cases ho : op.operation <;> simp [ho, Operation.withoutUids]

/-- A plan differs from another one only in the keys that are noted on some of its loads. -/
structure Annotated (tables : List (NodeId × KeyTable)) (p q : Plan) : Prop where
  ids : q.graph.ids = p.graph.ids
  nextKey : q.graph.nextKey = p.graph.nextKey
  successors : ∀ id, q.graph.successors id = p.graph.successors id
  predecessors : ∀ id, q.graph.predecessors id = p.graph.predecessors id
  core : ∀ id, q.core? id = p.core? id ∨ ∃ name l table, (id, table) ∈ tables ∧
    p.core? id = some { name, operation := .load l } ∧
    q.core? id = some { name, operation := .load { l with requiredKeys := some table } }
  noted : ∀ x ∈ tables, p.HasType x.1 .load →
    ∃ table, (x.1, table) ∈ tables ∧ q.keyTable? x.1 = some table

namespace Annotated

variable {tables : List (NodeId × KeyTable)}

theorem hasType (h : Annotated tables p q) {t : OperatorType} : q.HasType z t ↔ p.HasType z t := by
  rw [hasType_iff_core?, hasType_iff_core?]
  rcases h.core z with hz | ⟨name, l, table, -, hp, hq⟩
  · rw [hz]
  · rw [hp, hq]
    simp [Operator.type, Operation.type]

theorem contains (h : Annotated tables p q) : q.graph.contains z = p.graph.contains z := by
  rw [contains_eq_core?, contains_eq_core?]
  rcases h.core z with hz | ⟨name, l, table, -, hp, hq⟩
  · rw [hz]
  · rw [hp, hq]
    rfl

theorem core_of_ne_load (h : Annotated tables p q) (hop : p.core? z = some op)
    (hne : op.type ≠ .load) : q.core? z = some op := by
  rcases h.core z with hz | ⟨name, l, table, -, hp, hq⟩
  · rw [hz, hop]
  · obtain rfl := Option.some.inj (hop.symm.trans hp)
    exact absurd rfl hne

theorem dataInputs (h : Annotated tables p q) : q.dataInputs z = p.dataInputs z := by
  rcases h.core z with hz | ⟨name, l, table, -, hp, hq⟩
  · exact dataInputs_congr (h.predecessors z) hz
  · rw [dataInputs_of_core? hp, dataInputs_of_core? hq]
    rfl

theorem valid (h : Annotated tables p q) (hv : p.Valid) : q.Valid := by
  refine hv.transfer ?_ h.successors h.predecessors (fun id t ht => h.hasType.mpr ht)
    fun id op hop => ?_
  · obtain ⟨rank, hrank⟩ := hv.acyclic
    exact ⟨rank, fun a b hb => hrank a b (h.successors a ▸ hb)⟩
  have hcore : q.core? id = some op.core := by rw [core?, hop]; rfl
  rcases h.core id with hz | ⟨name, l, table, -, hp, hq⟩
  · rw [hcore] at hz
    obtain ⟨op', hop', heq⟩ := Option.map_eq_some_iff.mp hz.symm
    refine ⟨op', hop', type_eq_of_core heq, formulas_eq_of_core heq, fun t keys hj => ?_⟩
    have := congrArg Operator.operation heq
    rw [Operator.operation_core, Operator.operation_core, hj] at this
    cases ho : op'.operation <;> simp_all [Operation.withoutUids]
  · obtain ⟨op', hop', heq⟩ := Option.map_eq_some_iff.mp hp
    have htype : op.type = .load := by
      rw [← Operator.type_core, Option.some.inj (hcore.symm.trans hq)]
      rfl
    have htype' : op'.type = .load := by
      rw [← Operator.type_core, heq]
      rfl
    refine ⟨op', hop', htype'.trans htype.symm, ?_, fun t keys hj => ?_⟩
    · cases ho : op.operation <;> simp [Operator.type, ho, Operation.type] at htype
      cases ho' : op'.operation <;> simp [Operator.type, ho', Operation.type] at htype'
      rfl
    · simp [Operator.type, hj, Operation.type] at htype

theorem keyTable?_of_notMem (h : Annotated tables p q) (hz : ∀ table, (z, table) ∉ tables) :
    q.keyTable? z = p.keyTable? z := by
  rcases h.core z with hsame | ⟨name, l, table, hmem, -⟩
  · rw [keyTable?_eq, hsame, ← keyTable?_eq]
  · exact absurd hmem (hz table)

end Annotated

/-- Noting keys changes loads only, and of them nothing that a schema depends on. -/
theorem annotate_eq_update (id : NodeId) (table : KeyTable) : ∃ note : Operator → Operator,
    annotate id table = update id note ∧ (∀ op, (note op).memo = op.memo) ∧
    (∀ op, (note op.forget).core = (note op).core) ∧
    (∀ op l, op.operation = .load l →
      note op = { op with operation := .load { l with requiredKeys := some table } }) ∧
    ∀ op, op.type ≠ .load → note op = op := by
  refine ⟨_, rfl, fun op => ?_, fun op => ?_, fun op l hl => ?_, fun op hl => ?_⟩
  · split <;> rfl
  · cases ho : op.operation <;> simp [Operator.forget, Operator.core, ho]
  · simp only [hl]
  · cases ho : op.operation <;> simp_all [Operator.type, Operation.type]

/-- Noting keys on an operator changes it if it is a load. -/
theorem annotate_spec (table : KeyTable) (hwf : p.graph.WellFormed) (hp : p.Coherent)
    (hid : p.graph.contains id = true) : ∃ q, annotate id table p = .ok () q ∧
      q.graph.WellFormed ∧ q.Coherent ∧ Annotated [(id, table)] p q := by
  obtain ⟨note, hnote, hmemo, hforget, hload, hrest⟩ := annotate_eq_update id table
  obtain ⟨q, hrun, hwf', hp', hids, hkey, hsuc, hpre, hother, hself⟩ :=
    update_spec note hwf hp hid hmemo hforget
  obtain ⟨op, hop⟩ := exists_operator? hid
  have hcore : p.core? id = some op.core := by rw [core?, hop]; rfl
  rw [hop, Option.map_some] at hself
  have hnoted : ∀ l, op.operation = .load l → q.core? id =
      some { name := op.name, operation := .load { l with requiredKeys := some table } } :=
    fun l ho => by rw [hself, hload op l ho]; rfl
  refine ⟨q, hnote ▸ hrun, hwf', hp', hids, hkey, hsuc, hpre, fun z => ?_, fun x hx ht => ?_⟩
  · by_cases hz : z = id
    · subst hz
      cases ho : op.operation with
      | load l =>
        refine .inr ⟨op.name, l, table, by simp, ?_, hnoted l ho⟩
        rw [hcore, Operator.core, ho]
        rfl
      | _ =>
        refine .inl ?_
        rw [hself, hcore, hrest op (by simp [Operator.type, ho, Operation.type])]
    · exact .inl (hother z hz)
  · obtain rfl := List.mem_singleton.mp hx
    obtain ⟨op', hop', htype⟩ := ht
    obtain rfl := Option.some.inj (hop.symm.trans hop')
    cases ho : op.operation <;> simp [Operator.type, ho, Operation.type] at htype
    refine ⟨table, List.mem_singleton_self _, ?_⟩
    rw [keyTable?_eq, hnoted _ ho]
    rfl

theorem Annotated.trans {tables tables' : List (NodeId × KeyTable)} (h : Annotated tables p q)
    (h' : Annotated tables' q r) : Annotated (tables ++ tables') p r := by
  refine ⟨h'.ids.trans h.ids, h'.nextKey.trans h.nextKey, fun z =>
    (h'.successors z).trans (h.successors z), fun z =>
    (h'.predecessors z).trans (h.predecessors z), fun z => ?_, fun x hx ht => ?_⟩
  · rcases h.core z with hz | ⟨name, l, table, hmem, hp, hq⟩
    · rcases h'.core z with hz' | ⟨name, l, table, hmem, hq, hr⟩
      · exact .inl (hz'.trans hz)
      · exact .inr ⟨name, l, table, List.mem_append_right _ hmem, hz ▸ hq, hr⟩
    · rcases h'.core z with hz' | ⟨name', l', table', hmem', hq', hr⟩
      · exact .inr ⟨name, l, table, List.mem_append_left _ hmem, hp, hz'.trans hq⟩
      · -- the keys noted last are the ones that count
        have := Option.some.inj (hq.symm.trans hq')
        simp only [Operator.mk.injEq, Operation.load.injEq] at this
        obtain ⟨rfl, rfl, -⟩ := this
        exact .inr ⟨name, l, table', List.mem_append_right _ hmem', hp, hr⟩
  · by_cases hlater : ∃ table, (x.1, table) ∈ tables'
    · obtain ⟨table, hmem⟩ := hlater
      obtain ⟨table', hmem', hr⟩ := h'.noted (x.1, table) hmem (h.hasType.mpr ht)
      exact ⟨table', List.mem_append_right _ hmem', hr⟩
    · have hlater := not_exists.mp hlater
      have hx := (List.mem_append.mp hx).resolve_right (hlater x.2)
      obtain ⟨table, hmem, hq⟩ := h.noted x hx ht
      exact ⟨table, List.mem_append_left _ hmem, (h'.keyTable?_of_notMem hlater).trans hq⟩

theorem annotateAll_spec : ∀ (tables : List (NodeId × KeyTable)) {p : Plan}, p.graph.WellFormed →
    p.Coherent → (∀ x ∈ tables, p.graph.contains x.1 = true) →
    ∃ q, (tables.forM fun (id, table) => annotate id table) p = .ok () q ∧
      q.graph.WellFormed ∧ q.Coherent ∧ Annotated tables p q
  | [], p, hwf, hp, _ =>
    ⟨p, rfl, hwf, hp, rfl, rfl, fun _ => rfl, fun _ => rfl, fun _ => .inl rfl, by simp⟩
  | (id, table) :: tables, p, hwf, hp, hall => by
    obtain ⟨hid, hall⟩ := List.forall_mem_cons.mp hall
    obtain ⟨q₁, hrun₁, hwf₁, hp₁, h₁⟩ := annotate_spec table hwf hp hid
    obtain ⟨q, hrun, hwf', hp', h⟩ := annotateAll_spec tables hwf₁ hp₁ fun x hx => by
      rw [h₁.contains]
      exact hall x hx
    refine ⟨q, ?_, hwf', hp', h₁.trans h⟩
    rw [Pass.forM_cons]
    exact (Pass.bind_of_ok hrun₁).trans hrun

/-- The loads of a plan are noted all keys that the analysis finds to be needed of them. -/
def Prunes (p q : Plan) : Prop :=
  ∃ order n tables, (∀ id, id ∈ order ↔ p.graph.contains id = true) ∧ p.graph.Ordered order ∧
    Gathers p order.reverse {} n ∧
    (∀ x ∈ tables, ∃ s, p.memoOf x.1 = some (some s) ∧ x.2 = n.tableFor s) ∧ Annotated tables p q

/-- Either nothing can be told of the needed keys, or they are noted on the loads. It fails only
where a schema cannot be derived. -/
theorem pruneMapKeys_spec (hp : p.Sound) (hv : p.Valid) : match pruneMapKeys p with
    | .ok _ q => q.Sound ∧ q.Valid ∧ (Extends p q ∨ ∃ r, Extends p r ∧ Prunes r q)
    | .error e _ => Stuck p e := by
  have hspec := analyzeMapKeys_spec (hp.ready hv)
  unfold pruneMapKeys
  cases hrun : analyzeMapKeys p with
  | error e q =>
    rw [hrun] at hspec
    rw [Pass.bind_eq_error.mpr (.inl hrun)]
    exact hspec
  | ok found q =>
    rw [hrun] at hspec
    rw [Pass.bind_of_ok hrun]
    cases found with
    | none => exact ⟨hp.extends hspec, hspec.alike.valid hv, .inl hspec⟩
    | some tables =>
      obtain ⟨hext, order, n, horder, hgathers, htables⟩ := hspec
      obtain ⟨-, hmem, hord⟩ := topologicalOrder_spec hp.wellFormed horder
      have hq := hp.extends hext
      have hvq := hext.alike.valid hv
      obtain ⟨r, hannotate, hwf, hcoh, hann⟩ := annotateAll_spec tables hq.wellFormed
        hq.coherent fun x hx => by
          rw [hext.alike.contains]
          obtain ⟨op, hop, -⟩ := (htables x hx).1
          exact contains_of_operator? hop
      dsimp only
      rw [Pass.bind_of_ok hannotate]
      refine ⟨⟨hwf, hq.keysBelow.congr hann.ids hann.nextKey, fun id op hop f hf => ?_, hcoh⟩,
        hann.valid hvq, .inr ⟨q, hext, order, n, tables, fun z => ?_,
        fun before z behind heq x hx =>
          ?_, hgathers, fun x hx => (htables x hx).2, hann⟩⟩
      · have hcore : r.core? id = some op.core := by rw [core?, hop]; rfl
        rcases hann.core id with hz | ⟨name, l, table, -, -, hr⟩
        · rw [hcore] at hz
          obtain ⟨op', hop', heq⟩ := Option.map_eq_some_iff.mp hz.symm
          exact hq.formulas id op' hop' f (formulas_eq_of_core heq ▸ hf)
        · have := Option.some.inj (hcore.symm.trans hr)
          rw [← Operation.formulas_withoutUids, ← Operator.operation_core, this] at hf
          simp [Operation.formulas] at hf
      · rw [hmem, hext.alike.contains]
      · rw [hext.alike.predecessors] at hx
        exact hord before z behind heq x hx

end Plan

end Dataflow

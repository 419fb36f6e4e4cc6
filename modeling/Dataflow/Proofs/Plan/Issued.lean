import Dataflow.Proofs.Plan.Coherent

/-!
# Identities that are handed out

A supply hands out identities one after the other (`takeUids`), all different until the numbers run
over. Every identity that is handed out goes to a declared column, to a generated one, or to an
output column of a union: the operator owns it from then on (`Operation.ownUids`).
-/

namespace Dataflow

open Operator (takeUids)

variable {a b n : Nat} {supply supply' : UidSupply} {u : Uid} {o : Operation} {op : Operator}
  {s : Option Schema}

/-! ## Supplies -/

namespace UidSupply

theorem takeUids_add : ∀ (a b : Nat) (supply : UidSupply), takeUids (a + b) supply =
    ((takeUids a supply).1 ++ (takeUids b (takeUids a supply).2).1,
      (takeUids b (takeUids a supply).2).2)
  | 0, b, supply => by simp [takeUids]
  | a + 1, b, supply => by
    rw [Nat.succ_add]
    simp [takeUids, takeUids_add a b]

theorem toNat_take (h : supply.next.toNat + 1 < 2 ^ 64) :
    supply.take.2.next.toNat = supply.next.toNat + 1 := by
  show (supply.next + 1).toNat = _
  rw [UInt64.toNat_add]
  exact Nat.mod_eq_of_lt h

/-- While the numbers do not run over, the supply counts on, and what is handed out lies between
where it stood and where it stands. -/
theorem takeUids_spec : ∀ (n : Nat) (supply : UidSupply), supply.next.toNat + n < 2 ^ 64 →
    (takeUids n supply).2.next.toNat = supply.next.toNat + n ∧ (takeUids n supply).1.Nodup ∧
      ∀ u ∈ (takeUids n supply).1, supply.next.toNat ≤ u.val.toNat ∧
        u.val.toNat < supply.next.toNat + n
  | 0, supply, _ => by simp [takeUids]
  | n + 1, supply, h => by
    have htake : supply.take.2.next.toNat = _ := toNat_take (by omega)
    obtain ⟨hnext, hnodup, hbetween⟩ := takeUids_spec n supply.take.2 (by omega)
    rw [htake] at hnext hbetween
    have hpeek : supply.take.1.val.toNat = supply.next.toNat := rfl
    simp only [takeUids]
    refine ⟨by omega, List.nodup_cons.mpr ⟨fun hmem => ?_, hnodup⟩, fun u hu => ?_⟩
    · have := hbetween _ hmem
      omega
    · rcases List.mem_cons.mp hu with rfl | hu
      · omega
      · have := hbetween u hu
        omega

end UidSupply

/-! ## Declared columns -/

mutual

/-- The identities from which a column or one inside it was computed. -/
def Field.allParents : Field → List Uid
  | ⟨_, _, inner, _, ps⟩ => ps ++ Schema.nestedParents inner

def Schema.nestedParents : Option (List Field) → List Uid
  | none => []
  | some s => Schema.allParents s

/-- The identities from which the columns were computed, inner ones included. -/
def Schema.allParents : List Field → List Uid
  | [] => []
  | f :: s => f.allParents ++ Schema.allParents s

end

open UidSupply

mutual

/-- A column takes as many identities as it has inner columns, and one more. -/
theorem Field.withFreshUids_spec : ∀ (f : Field) (supply : UidSupply),
    ((f.withFreshUids supply).1.allUids, (f.withFreshUids supply).2) =
        takeUids f.allUids.length supply ∧
      (f.withFreshUids supply).1.allParents = f.allParents
  | ⟨_, _, inner, _, _⟩, supply => by
    obtain ⟨huids, hparents⟩ := Schema.nestedWithFreshUids_spec inner supply.take.2
    simp only [Field.withFreshUids, Field.allUids, Field.allParents, List.length_cons, takeUids,
      hparents, ← huids, and_self]

theorem Schema.nestedWithFreshUids_spec : ∀ (inner : Option (List Field)) (supply : UidSupply),
    (Schema.nestedUids (Schema.nestedWithFreshUids inner supply).1,
        (Schema.nestedWithFreshUids inner supply).2) =
        takeUids (Schema.nestedUids inner).length supply ∧
      Schema.nestedParents (Schema.nestedWithFreshUids inner supply).1 = Schema.nestedParents inner
  | none, _ => ⟨rfl, rfl⟩
  | some s, supply => by
    simp only [Schema.nestedWithFreshUids, Schema.nestedUids, Schema.nestedParents]
    exact Schema.withFreshUids_spec s supply

theorem Schema.withFreshUids_spec : ∀ (s : List Field) (supply : UidSupply),
    (Schema.allUids (Schema.withFreshUids s supply).1, (Schema.withFreshUids s supply).2) =
        takeUids (Schema.allUids s).length supply ∧
      Schema.allParents (Schema.withFreshUids s supply).1 = Schema.allParents s
  | [], _ => ⟨rfl, rfl⟩
  | f :: s, supply => by
    obtain ⟨hf, hfp⟩ := Field.withFreshUids_spec f supply
    obtain ⟨hs, hsp⟩ := Schema.withFreshUids_spec s (f.withFreshUids supply).2
    simp only [Schema.withFreshUids, Schema.allUids, Schema.allParents, List.length_append,
      takeUids_add, ← hf, ← hs, hfp, hsp, and_self]

end

/-! ## Operations -/

namespace Operation

/-- The identities of the columns that the operation declares or makes. -/
def ownUids : Operation → List Uid
  | .load l => (l.declared.map Schema.allUids).getD []
  | .forEach items => items.map Item.uid
  | .union chosen => chosen
  | _ => []

/-- Nothing was handed out yet for the operation, and what it declares is computed from nothing. -/
def IsBlank : Operation → Prop
  | .load l => ∀ s ∈ l.declared, (∀ u ∈ Schema.allUids s, u.val = 0) ∧ Schema.allParents s = []
  | .forEach items => ∀ item ∈ items, item.uid.val = 0
  | .union chosen => chosen = []
  | _ => True

/-- Declared columns are computed from nothing. -/
def IsSource : Operation → Prop
  | .load l => ∀ s ∈ l.declared, Schema.allParents s = []
  | _ => True

theorem withItemUids_spec : ∀ (items : List Item) (supply : UidSupply),
    (∀ item ∈ items, item.uid.val = 0) →
    ((withItemUids items supply).1.map Item.uid, (withItemUids items supply).2) =
      takeUids items.length supply
  | [], _, _ => rfl
  | item :: items, supply, h => by
    obtain ⟨hitem, h⟩ := List.forall_mem_cons.mp h
    have hrest := withItemUids_spec items supply.take.2 h
    simp only [withItemUids, hitem, if_true, List.map_cons, List.length_cons, takeUids, ← hrest]

/-- An operation of which nothing has an identity yet gets all of them fresh. -/
theorem withUids_spec (h : o.IsBlank) (supply : UidSupply) :
    ∃ n, ((o.withUids supply).1.ownUids, (o.withUids supply).2) = takeUids n supply := by
  cases o with
  | load l =>
    cases hl : l.declared with
    | none => exact ⟨0, by simp [withUids, ownUids, hl, takeUids]⟩
    | some s =>
      cases hany : (Schema.allUids s).any (·.val == 0) with
      | true =>
        refine ⟨(Schema.allUids s).length, ?_⟩
        simp only [withUids, hl, hany, if_true, ownUids, Option.map_some, Option.getD_some]
        exact (Schema.withFreshUids_spec s supply).1
      | false =>
        have hnil : Schema.allUids s = [] := by
          obtain ⟨hzero, -⟩ := h s hl
          refine List.eq_nil_iff_forall_not_mem.mpr fun u hu => ?_
          simpa [hzero u hu] using List.any_eq_false.mp hany u hu
        exact ⟨0, by simp [withUids, ownUids, hl, hnil, takeUids]⟩
  | forEach items => exact ⟨items.length, withItemUids_spec items supply h⟩
  | union chosen => exact ⟨0, by simp [withUids, ownUids, show chosen = [] from h, takeUids]⟩
  | _ => exact ⟨0, rfl⟩

theorem isSource_withUids (h : o.IsBlank) (supply : UidSupply) :
    (o.withUids supply).1.IsSource := by
  cases o with
  | load l =>
    cases hl : l.declared with
    | none => simp [withUids, IsSource, hl]
    | some s =>
      obtain ⟨-, hparents⟩ := h s hl
      unfold withUids
      simp only [hl]
      split
      · simpa [IsSource] using (Schema.withFreshUids_spec s supply).2.trans hparents
      · simpa [IsSource, hl] using hparents
  | _ => trivial

end Operation

theorem Operator.unionSchema_uids (inputs : Expr.Inputs) (supply : UidSupply) :
    ∃ n, (Operator.unionSchema [] inputs supply).2 = takeUids n supply := by
  unfold Operator.unionSchema
  cases Operator.allKnown? inputs with
  | none => exact ⟨0, rfl⟩
  | some known =>
    dsimp only
    cases Operator.mergeAll? known with
    | none => exact ⟨0, rfl⟩
    | some merged =>
      dsimp only
      unfold Operator.unionUids
      split
      · exact ⟨0, rfl⟩
      · exact ⟨merged.length, rfl⟩

/-- Deriving a schema hands out identities only to a union that has none. -/
theorem Operator.deriveSchema_ownUids {inputs : Expr.Inputs} {names : List (Option String)}
    (h : op.deriveSchema inputs names supply = .ok (s, o, supply'))
    (hunion : ∀ chosen, op.operation = .union chosen → chosen = []) :
    ∃ n, (o.ownUids, supply') =
      (op.operation.ownUids ++ (takeUids n supply).1, (takeUids n supply).2) := by
  unfold Operator.deriveSchema at h
  cases ho : op.operation with
  | union chosen =>
    obtain rfl := hunion chosen ho
    simp only [ho, Except.ok.injEq, Prod.mk.injEq] at h
    obtain ⟨-, rfl, rfl⟩ := h
    obtain ⟨n, hn⟩ := Operator.unionSchema_uids inputs supply
    exact ⟨n, by simp [Operation.ownUids, hn]⟩
  | cross =>
    simp only [ho] at h
    obtain ⟨t, -, h⟩ := Pass.except_bind_eq_ok.mp h
    obtain ⟨-, rfl, rfl⟩ : _ ∧ _ ∧ _ := by simpa using h
    exact ⟨0, by simp [takeUids]⟩
  | join type keys =>
    simp only [ho] at h
    obtain ⟨t, -, h⟩ := Pass.except_bind_eq_ok.mp h
    obtain ⟨-, rfl, rfl⟩ : _ ∧ _ ∧ _ := by simpa using h
    exact ⟨0, by simp [takeUids]⟩
  | forEach items =>
    simp only [ho] at h
    obtain ⟨t, -, h⟩ := Pass.except_bind_eq_ok.mp h
    obtain ⟨-, rfl, rfl⟩ : _ ∧ _ ∧ _ := by simpa using h
    exact ⟨0, by simp [takeUids]⟩
  | _ =>
    simp only [ho] at h
    obtain ⟨-, rfl, rfl⟩ : _ ∧ _ ∧ _ := by simpa using h
    exact ⟨0, by simp [takeUids]⟩

end Dataflow

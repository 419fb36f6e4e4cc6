import Mathlib.Data.List.Forall2
import Mathlib.Data.List.InsertIdx
import Mathlib.Data.List.Nodup
import Mathlib.Data.List.Perm.Basic

/-!
# Lists

What several modules use of lists and the library does not have: lists related place by place, lists
whose elements are related pairwise, and where an element stands.
-/

namespace Dataflow.Lists

variable {α β γ : Type} {R : α → β → Prop} {as : List α} {bs : List β} {a : α}

/-! ## Place by place -/

/-- Each element has a related one. -/
theorem exists_of_forall₂ : ∀ {as : List α} {bs : List β}, List.Forall₂ R as bs → a ∈ as →
    ∃ b ∈ bs, R a b
  | _, _, .nil, ha => by simp at ha
  | a' :: as, b :: bs, .cons hR h, ha => by
    rcases List.mem_cons.mp ha with rfl | ha
    · exact ⟨b, by simp, hR⟩
    · obtain ⟨b', hb', hR'⟩ := exists_of_forall₂ h ha
      exact ⟨b', by simp [hb'], hR'⟩

/-- What relates elements pairwise relates those that go with them. -/
theorem pairwise_of_forall₂ {S : α → α → Prop} {T : β → β → Prop}
    (hT : ∀ a a' b b', S a a' → R a b → R a' b' → T b b') : ∀ {as : List α} {bs : List β},
      List.Forall₂ R as bs → as.Pairwise S → bs.Pairwise T
  | _, _, .nil, _ => .nil
  | a :: as, b :: bs, .cons hR h, hS => by
    obtain ⟨ha, hS⟩ := List.pairwise_cons.mp hS
    refine List.pairwise_cons.mpr ⟨fun b' hb' => ?_, pairwise_of_forall₂ hT h hS⟩
    obtain ⟨a', ha', hR'⟩ := exists_of_forall₂ h.flip hb'
    exact hT a a' b b' (ha a' ha') hR hR'

theorem forall_mem_congr {P : α → Prop} {Q : β → Prop} (hPQ : ∀ a b, R a b → (P a ↔ Q b))
    (h : List.Forall₂ R as bs) : (∀ a ∈ as, P a) ↔ ∀ b ∈ bs, Q b := by
  induction h with
  | nil => simp
  | cons hab _ ih => rw [List.forall_mem_cons, List.forall_mem_cons, hPQ _ _ hab, ih]

theorem flatMap_congr {f : α → List γ} {g : β → List γ} (hfg : ∀ a b, R a b → f a = g b)
    (h : List.Forall₂ R as bs) : as.flatMap f = bs.flatMap g := by
  induction h with
  | nil => rfl
  | cons hab _ ih => rw [List.flatMap_cons, List.flatMap_cons, hfg _ _ hab, ih]

theorem any_congr {p : α → Bool} {q : β → Bool} (hpq : ∀ a b, R a b → p a = q b)
    (h : List.Forall₂ R as bs) : as.any p = bs.any q := by
  induction h with
  | nil => rfl
  | cons hab _ ih => rw [List.any_cons, List.any_cons, hpq _ _ hab, ih]

/-- Lists related place by place are two views of one list of related pairs. -/
theorem exists_pairs (h : List.Forall₂ R as bs) : ∃ pairs : List { x : α × β // R x.1 x.2 },
    pairs.map (·.1.1) = as ∧ pairs.map (·.1.2) = bs := by
  induction h with
  | nil => exact ⟨[], rfl, rfl⟩
  | cons hab _ ih =>
    obtain ⟨pairs, rfl, rfl⟩ := ih
    exact ⟨⟨(_, _), hab⟩ :: pairs, rfl, rfl⟩

/-! ## Places -/

theorem pairwise_zipIdx (l : List α) : l.zipIdx.Pairwise fun x y => x.2 < y.2 :=
  List.pairwise_map.mp (by rw [List.zipIdx_map_snd]; exact List.pairwise_lt_range')

theorem pairwise_insertIdx {S : α → α → Prop} : ∀ {as : List α} {i : Nat}, as.Pairwise S →
    (∀ b ∈ as.take i, S b a) → (∀ b ∈ as.drop i, S a b) → (as.insertIdx i a).Pairwise S
  | as, 0, h, _, hafter => List.pairwise_cons.mpr ⟨by simpa using hafter, h⟩
  | [], _ + 1, h, _, _ => by simp
  | c :: as, i + 1, h, hbefore, hafter => by
    obtain ⟨hc, h⟩ := List.pairwise_cons.mp h
    rw [List.take_succ_cons, List.forall_mem_cons] at hbefore
    rw [List.insertIdx_succ_cons, List.pairwise_cons]
    refine ⟨fun b hb => ?_, pairwise_insertIdx h hbefore.2 hafter⟩
    rcases List.eq_or_mem_of_mem_insertIdx hb with rfl | hb
    · exact hbefore.1
    · exact hc b hb

/-- What is earlier in a list stands earlier in what is left of it, too. -/
theorem lt_of_idxOf_lt [BEq α] [LawfulBEq α] {l l' : List α} {x y : α} {i j : Nat} (hl : l.Nodup)
    (hsub : l'.Sublist l) (hj : l'[j]? = some x) (hi : l'[i]? = some y)
    (hlt : l.idxOf x < l.idxOf y) : j < i := by
  have hsorted : l.Pairwise fun a b => l.idxOf a < l.idxOf b := by
    refine List.pairwise_iff_getElem.mpr fun m n hm hn hmn => ?_
    rwa [hl.idxOf_getElem, hl.idxOf_getElem]
  obtain ⟨hj', rfl⟩ := List.getElem?_eq_some_iff.mp hj
  obtain ⟨hi', rfl⟩ := List.getElem?_eq_some_iff.mp hi
  by_contra hle
  rcases Nat.lt_or_eq_of_le (Nat.le_of_not_lt hle) with hij | rfl
  · have := List.pairwise_iff_getElem.mp (hsorted.sublist hsub) i j hi' hj' hij
    omega
  · omega

theorem of_cons_eq_append_cons {b : α} {l before behind : List α}
    (h : a :: l = before ++ b :: behind) : (before = [] ∧ a = b ∧ l = behind) ∨
      ∃ before', before = a :: before' ∧ l = before' ++ b :: behind := by
  rcases List.cons_eq_append_iff.mp h with ⟨rfl, heq⟩ | hlater
  · obtain ⟨rfl, rfl⟩ := List.cons.inj heq
    exact .inl ⟨rfl, rfl, rfl⟩
  · exact .inr hlater

theorem filter_eq_append_cons {f : α → Bool} {l before behind : List α}
    (h : l.filter f = before ++ a :: behind) :
    ∃ front back, l = front ++ a :: back ∧ front.filter f = before ∧ f a = true := by
  obtain ⟨l₁, l₂, rfl, h₁, h₂⟩ := List.filter_eq_append_iff.mp h
  obtain ⟨m₁, m₂, rfl, hm₁, ha, -⟩ := List.filter_eq_cons_iff.mp h₂
  refine ⟨l₁ ++ m₁, m₂, by simp, ?_, ha⟩
  rw [List.filter_append, h₁, List.filter_eq_nil_iff.mpr hm₁, List.append_nil]

/-! ## Lists of lists -/

/-- What one element gives more comes to what the list had. -/
theorem flatMap_perm_append {l : List α} {f g : α → List β} {more : List β} (hl : l.Nodup)
    (ha : a ∈ l) (hne : ∀ x, x ≠ a → g x = f x) (heq : g a = f a ++ more) :
    (l.flatMap g).Perm (l.flatMap f ++ more) := by
  obtain ⟨before, after, rfl⟩ := List.append_of_mem ha
  have hsame : ∀ l' : List α, a ∉ l' → l'.flatMap g = l'.flatMap f := fun l' hl' =>
    List.flatMap_congr fun x hx => hne x (ne_of_mem_of_not_mem hx hl')
  obtain ⟨-, hnodup, hdisjoint⟩ := List.nodup_append'.mp hl
  have hbefore : a ∉ before := fun hmem => hdisjoint hmem (by simp)
  have hafter : a ∉ after := (List.nodup_cons.mp hnodup).1
  simp only [List.flatMap_append, List.flatMap_cons, heq, hsame before hbefore, hsame after hafter,
    List.append_assoc]
  exact (List.perm_append_comm.append_left _).append_left _

theorem foldl_flatMap_nil (k : α → β → List β) : ∀ l : List α,
    l.foldl (fun acc a => acc.flatMap (k a)) [] = []
  | [] => rfl
  | _ :: l => foldl_flatMap_nil k l

end Dataflow.Lists

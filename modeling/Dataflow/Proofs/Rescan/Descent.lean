/-!
# Systems in which all ways lead to the same end

Steps that can be taken in any order: where two different steps are possible, each can still be
taken after the other, and it makes no difference which of them came first. Whoever goes on until no
step is possible then takes the same number of steps and ends at the same place
(`Confluent.ends_alike`). "The same" is up to a relation, along which every step can be taken again.
-/

namespace Dataflow

variable {α : Type} {step same : α → α → Prop} {a b c d : α} {m n : Nat}

/-- So many steps lead from one to the other. -/
inductive Takes (step : α → α → Prop) : Nat → α → α → Prop
  | none {a : α} : Takes step 0 a a
  | more {a b c : α} {n : Nat} : step a b → Takes step n b c → Takes step (n + 1) a c

/-- No step is possible any more. -/
def AtEnd (step : α → α → Prop) (a : α) : Prop := ∀ b, ¬step a b

namespace Takes

theorem one (h : step a b) : Takes step 1 a b := .more h .none

theorem trans (h : Takes step m a b) (h' : Takes step n b c) : Takes step (m + n) a c := by
  induction h with
  | none => rwa [Nat.zero_add]
  | more hstep _ ih =>
    rw [Nat.add_right_comm]
    exact .more hstep (ih h')

end Takes

/-- Steps can be taken again on what is the same, and two different steps commute. -/
structure Confluent (step same : α → α → Prop) : Prop where
  refl : ∀ a, same a a
  symm : ∀ {a b}, same a b → same b a
  trans : ∀ {a b c}, same a b → same b c → same a c
  again : ∀ {a a' b}, same a a' → step a b → ∃ b', step a' b' ∧ same b b'
  commute : ∀ {a b c}, step a b → step a c →
    same b c ∨ ∃ d e, step b d ∧ step c e ∧ same d e

namespace Confluent

variable (h : Confluent step same)

include h

theorem takes_again {a' : α} (hsame : same a a') (hrun : Takes step n a b) :
    ∃ b', Takes step n a' b' ∧ same b b' := by
  induction hrun generalizing a' with
  | none => exact ⟨a', .none, hsame⟩
  | more hstep _ ih =>
    obtain ⟨b', hstep', hb⟩ := h.again hsame hstep
    obtain ⟨c', hrun', hc⟩ := ih hb
    exact ⟨c', .more hstep' hrun', hc⟩

theorem atEnd_of_same (hsame : same a b) (hend : AtEnd step a) : AtEnd step b := by
  intro c hc
  obtain ⟨c', hc', -⟩ := h.again (h.symm hsame) hc
  exact hend c' hc'

/-- Whichever step is taken first, the end is as far away as before, less that one step. -/
theorem shorten {a' : α} (hsame : same a a') (hrun : Takes step m a c) (hend : AtEnd step c)
    (hstep : step a' b) : ∃ n c', m = n + 1 ∧ Takes step n b c' ∧ same c c' := by
  induction hrun generalizing a' b with
  | none =>
    obtain ⟨b', hb', -⟩ := h.again (h.symm hsame) hstep
    exact absurd hb' (hend b')
  | @more a d c m had hrun ih =>
    obtain ⟨d', hd', hdd'⟩ := h.again hsame had
    rcases h.commute hd' hstep with hone | ⟨e, e', hde, hbe, hee'⟩
    · obtain ⟨c', hrun', hc⟩ := h.takes_again (h.trans hdd' hone) hrun
      exact ⟨m, c', rfl, hrun', hc⟩
    · obtain ⟨n, c', rfl, hrun', hc⟩ := ih hdd' hend hde
      obtain ⟨c₂, hrun₂, hc₂⟩ := h.takes_again hee' hrun'
      exact ⟨n + 1, c₂, rfl, .more hbe hrun₂, h.trans hc hc₂⟩

/-- From what is the same, all ways to an end are equally long and lead to the same. -/
theorem ends_alike {a' c' : α} (hsame : same a a') (hrun : Takes step m a c) (hend : AtEnd step c)
    (hrun' : Takes step n a' c') (hend' : AtEnd step c') : m = n ∧ same c c' := by
  induction hrun' generalizing m a c with
  | none =>
    cases hrun with
    | none => exact ⟨rfl, hsame⟩
    | more hstep _ =>
      obtain ⟨b', hb', -⟩ := h.again hsame hstep
      exact absurd hb' (hend' b')
  | more hstep _ ih =>
    obtain ⟨k, c₁, rfl, hrun₁, hc⟩ := h.shorten hsame hrun hend hstep
    obtain ⟨rfl, hc'⟩ := ih (h.refl _) hrun₁ (h.atEnd_of_same hc hend) hend'
    exact ⟨rfl, h.trans hc hc'⟩

end Confluent

end Dataflow

import Dataflow.Text.Basic
import Mathlib.Algebra.Ring.Nat
import Mathlib.Data.List.DropRight
import Mathlib.Data.List.Infix

/-!
# Parts of a text

What a text is cut into at a separator, before and behind the first mark, and what is left of it
when characters at its ends are dropped.
-/

namespace Dataflow.Text

variable {separator : Char} {test : Char → Bool} {mark s t before part : List Char}

/-! ## Between separators -/

theorem splitOn_eq (separator : Char) : ∀ s : List Char,
    splitOn separator s = s.splitOn separator
  | [] => by simp [splitOn]
  | c :: s => by
    rw [splitOn, splitOn_eq separator s, List.splitOn_cons_eq_if_modifyHead]
    by_cases hc : c = separator
    · simp [hc]
    · -- the first part is there, so that the character can be put in front of it
      obtain ⟨part, parts, hparts⟩ := List.exists_cons_of_ne_nil (List.splitOn_ne_nil separator s)
      simp [hc, hparts]

/-- A separator cuts a text in two. -/
theorem splitOn_append_cons (s t : List Char) :
    splitOn separator (s ++ separator :: t) = splitOn separator s ++ splitOn separator t := by
  rw [splitOn_eq, splitOn_eq, splitOn_eq, List.splitOn_append_cons_self]

theorem splitOn_of_notMem (h : separator ∉ s) : splitOn separator s = [s] := by
  rw [splitOn_eq]
  exact List.splitOn_eq_singleton h

theorem splitOn_append (h : separator ∉ s) :
    splitOn separator (s ++ separator :: t) = s :: splitOn separator t := by
  rw [splitOn_append_cons, splitOn_of_notMem h]
  rfl

theorem splitOn_ne_nil (separator : Char) (s : List Char) : splitOn separator s ≠ [] := by
  rw [splitOn_eq]
  exact List.splitOn_ne_nil separator s

theorem notMem_of_mem_splitOn (h : part ∈ splitOn separator s) : separator ∉ part := by
  induction s generalizing part with
  | nil =>
    obtain rfl := List.mem_singleton.mp h
    simp
  | cons c s ih =>
    rw [splitOn] at h
    split_ifs at h with hc
    · rcases List.mem_cons.mp h with rfl | h
      · simp
      · exact ih h
    · obtain ⟨first, parts, hparts⟩ := List.exists_cons_of_ne_nil (splitOn_ne_nil separator s)
      rw [hparts] at h ih
      rcases List.mem_cons.mp h with rfl | h
      · have hfirst : separator ∉ first := ih List.mem_cons_self
        simp [hfirst, Ne.symm hc]
      · exact ih (List.mem_cons_of_mem first h)

/-- All characters but the separators are in the parts. -/
theorem length_splitOn (separator : Char) (s : List Char) :
    ((splitOn separator s).map fun part => part.length + 1).sum = s.length + 1 := by
  induction s with
  | nil => rfl
  | cons c s ih =>
    rw [splitOn]
    split_ifs
    · rw [List.map_cons, List.sum_cons, ih, List.length_cons, List.length_nil]
      omega
    · obtain ⟨first, parts, hparts⟩ := List.exists_cons_of_ne_nil (splitOn_ne_nil separator s)
      rw [hparts] at ih ⊢
      simp only [List.map_cons, List.sum_cons, List.length_cons] at ih ⊢
      omega

/-! ## Dropped ends -/

theorem dropEnd_cons_of_ne_nil {c : Char} (h : dropEnd test s ≠ []) :
    dropEnd test (c :: s) = c :: dropEnd test s := by
  rw [dropEnd]
  split
  · contradiction
  · rfl

theorem dropEnd_concat (c : Char) (s : List Char) :
    dropEnd test (s ++ [c]) = if test c then dropEnd test s else s ++ [c] := by
  induction s with
  | nil => rfl
  | cons d s ih =>
    rw [List.cons_append]
    split_ifs at ih ⊢
    · rw [dropEnd, ih]
      rfl
    · rw [dropEnd_cons_of_ne_nil (by simp [ih]), ih]

theorem dropEnd_eq (test : Char → Bool) (s : List Char) : dropEnd test s = s.rdropWhile test := by
  induction s using List.reverseRecOn with
  | nil => rfl
  | append_singleton s c ih => rw [dropEnd_concat, List.rdropWhile_concat, ih]

theorem dropEnd_isPrefix (test : Char → Bool) (s : List Char) : dropEnd test s <+: s := by
  rw [dropEnd_eq]
  exact List.rdropWhile_prefix test s

/-- The last character does not satisfy the test. -/
def EndsWithout (test : Char → Bool) (s : List Char) : Prop := ∀ c ∈ s.getLast?, test c = false

instance : Decidable (EndsWithout test s) := s.getLast?.decidableForallMem

theorem endsWithout_dropEnd (test : Char → Bool) (s : List Char) :
    EndsWithout test (dropEnd test s) := by
  intro c hc
  rw [dropEnd_eq] at hc
  obtain ⟨hne, rfl⟩ := List.mem_getLast?_eq_getLast hc
  simpa using List.rdropWhile_last_not test s hne

theorem dropEnd_eq_self_iff : dropEnd test s = s ↔ EndsWithout test s := by
  constructor
  · intro h
    exact h ▸ endsWithout_dropEnd test s
  · intro h
    rw [dropEnd_eq, List.rdropWhile_eq_self_iff]
    intro hne
    rw [h _ (List.getLast_mem_getLast? hne)]
    simp

theorem dropEnd_append (ht : dropEnd test t ≠ []) (s : List Char) :
    dropEnd test (s ++ t) = s ++ dropEnd test t := by
  induction s with
  | nil => rfl
  | cons c s ih =>
    rw [List.cons_append, dropEnd_cons_of_ne_nil (by simp [ih, ht]), ih]
    rfl

theorem dropEnd_eq_nil_iff : dropEnd test s = [] ↔ ∀ c ∈ s, test c = true := by
  rw [dropEnd_eq, List.rdropWhile_eq_nil_iff]

theorem dropEnd_append_of_all (h : ∀ c ∈ t, test c = true) (s : List Char) :
    dropEnd test (s ++ t) = dropEnd test s := by
  induction t using List.reverseRecOn with
  | nil => rw [List.append_nil]
  | append_singleton t c ih =>
    rw [← List.append_assoc, dropEnd_concat, if_pos (h c (by simp))]
    exact ih fun d hd => h d (by simp [hd])

theorem length_dropEnd_lt (h : ¬EndsWithout test s) : (dropEnd test s).length < s.length := by
  refine Nat.lt_of_le_of_ne (dropEnd_isPrefix test s).length_le fun heq => h ?_
  exact dropEnd_eq_self_iff.mp ((dropEnd_isPrefix test s).eq_of_length heq)

/-! ## Trimmed texts -/

/-- The first character is not blank. -/
def BeginsPlain (s : List Char) : Prop := ∀ c ∈ s.head?, isBlank c = false

theorem trimmed_of_beginsPlain (h : BeginsPlain s) : trimmed s = dropEnd isBlank s := by
  cases s with
  | nil => rfl
  | cons c s =>
    have hc : isBlank c = false := h c (by simp)
    rw [trimmed, List.dropWhile_cons, if_neg (by simp [hc])]

theorem trimmed_eq_self (h : BeginsPlain s) (hend : EndsWithout isBlank s) : trimmed s = s := by
  rw [trimmed_of_beginsPlain h, dropEnd_eq_self_iff.mpr hend]

theorem beginsPlain_of_isPrefix (h : t <+: s) (hs : BeginsPlain s) : BeginsPlain t := by
  obtain ⟨rest, rfl⟩ := h
  intro c hc
  refine hs c ?_
  rw [List.head?_append, Option.mem_def.mp hc]
  rfl

theorem beginsPlain_trimmed (s : List Char) : BeginsPlain (trimmed s) := by
  refine beginsPlain_of_isPrefix (dropEnd_isPrefix isBlank _) fun c hc => ?_
  have hne : s.dropWhile isBlank ≠ [] := by
    rintro hnil
    simp [hnil] at hc
  have hhead := List.head_dropWhile_not isBlank hne
  rw [List.head?_eq_some_head hne, Option.mem_some_iff] at hc
  exact hc ▸ hhead

theorem endsWithout_trimmed (s : List Char) : EndsWithout isBlank (trimmed s) :=
  endsWithout_dropEnd isBlank _

@[simp] theorem trimmed_trimmed (s : List Char) : trimmed (trimmed s) = trimmed s :=
  trimmed_eq_self (beginsPlain_trimmed s) (endsWithout_trimmed s)

/-! ## At the first mark -/

/-- Nothing of the text before the mark can be mistaken for one. -/
def IsBefore (mark before : List Char) : Prop := ¬mark <:+: before ++ mark.dropLast

instance : Decidable (IsBefore mark before) := inferInstanceAs (Decidable (¬_))

theorem not_infix_dropLast (hmark : mark ≠ []) : ¬mark <:+: mark.dropLast := by
  intro h
  have hlen := h.length_le
  rw [List.length_dropLast] at hlen
  have := List.length_pos_of_ne_nil hmark
  omega

theorem prefix_append_dropLast (hs : s ≠ []) (h : mark <+: s ++ (mark ++ t)) :
    mark <+: s ++ mark.dropLast := by
  have hlen : mark.length ≤ (s ++ mark.dropLast).length := by
    rw [List.length_append, List.length_dropLast]
    have := List.length_pos_of_ne_nil hs
    omega
  have hfront : s ++ mark.dropLast <+: s ++ (mark ++ t) :=
    (List.prefix_append_right_inj s).mpr
      ((List.dropLast_prefix mark).trans (List.prefix_append _ _))
  exact List.prefix_of_prefix_length_le h hfront hlen

/-- A text is cut where the mark stands first. -/
theorem splitOnce_eq_some_iff (hmark : mark ≠ []) : ∀ {s before behind : List Char},
    splitOnce mark s = some (before, behind) ↔
      s = before ++ (mark ++ behind) ∧ IsBefore mark before
  | [], before, behind => by simp [splitOnce, hmark]
  | c :: s, before, behind => by
    rw [splitOnce]
    split_ifs with hc
    · rw [List.isPrefixOf_iff_prefix] at hc
      obtain ⟨rest, hrest⟩ := hc
      rw [← hrest, List.drop_left, Option.some_inj, Prod.mk.injEq]
      constructor
      · rintro ⟨rfl, rfl⟩
        exact ⟨rfl, not_infix_dropLast hmark⟩
      · rintro ⟨heq, hbefore⟩
        by_cases hnil : before = []
        · subst hnil
          exact ⟨rfl, List.append_cancel_left heq⟩
        · -- the mark in front would be found before the one that is meant
          have hfront : mark <+: before ++ (mark ++ behind) := heq ▸ List.prefix_append mark rest
          exact absurd (prefix_append_dropLast hnil hfront).isInfix hbefore
    · have hc : ¬mark <+: c :: s := by simpa [List.isPrefixOf_iff_prefix] using hc
      rw [Option.map_eq_some_iff]
      constructor
      · rintro ⟨⟨front, rest⟩, hsplit, heq⟩
        obtain ⟨rfl, rfl⟩ := Prod.mk.inj heq
        obtain ⟨rfl, hfront⟩ := (splitOnce_eq_some_iff hmark).mp hsplit
        refine ⟨rfl, fun hinfix => ?_⟩
        rcases List.infix_cons_iff.mp hinfix with h | h
        · refine hc (h.trans ?_)
          refine (List.prefix_append_right_inj (c :: front)).mpr ?_
          exact (List.dropLast_prefix mark).trans (List.prefix_append _ _)
        · exact hfront h
      · rintro ⟨heq, hbefore⟩
        cases before with
        | nil => exact absurd ⟨behind, heq.symm⟩ hc
        | cons d front =>
          obtain ⟨rfl, rfl⟩ := List.cons.inj heq
          refine ⟨(front, behind), (splitOnce_eq_some_iff hmark).mpr ⟨rfl, fun h => ?_⟩, rfl⟩
          exact hbefore (List.infix_cons_iff.mpr (.inr h))

theorem splitOnce_eq_none_iff (hmark : mark ≠ []) : ∀ {s : List Char},
    splitOnce mark s = none ↔ ¬mark <:+: s
  | [] => by simp [splitOnce, hmark]
  | c :: s => by
    rw [splitOnce, List.infix_cons_iff, not_or, ← splitOnce_eq_none_iff hmark,
      ← List.isPrefixOf_iff_prefix]
    split_ifs with hc <;> simp [hc]

end Dataflow.Text

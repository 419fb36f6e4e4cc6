import Dataflow.Json.Basic

/-!
# JSON texts are lines

The text of a value has no control characters, since those of its strings are escaped
(`isVisible_text`). So it is a single line, whatever texts there are in the value.
-/

namespace Dataflow.Json

/-- Whether there is no control character among the given ones. -/
def IsVisible (cs : List Char) : Prop := ∀ c ∈ cs, 0x20 ≤ c.toNat

instance (cs : List Char) : Decidable (IsVisible cs) :=
  decidable_of_iff (cs.all fun c => decide (0x20 ≤ c.toNat)) (by simp [IsVisible])

theorem isVisible_append {cs ds : List Char} :
    IsVisible (cs ++ ds) ↔ IsVisible cs ∧ IsVisible ds := List.forall_mem_append

theorem isVisible_cons {c : Char} {cs : List Char} :
    IsVisible (c :: cs) ↔ 0x20 ≤ c.toNat ∧ IsVisible cs := List.forall_mem_cons

theorem isVisible_intercalate {separator : List Char} (hsep : IsVisible separator) :
    ∀ {parts : List (List Char)}, (∀ part ∈ parts, IsVisible part) →
      IsVisible (separator.intercalate parts)
  | [], _ => by simp [IsVisible]
  | [part], h => by simpa using h
  | part :: part' :: parts, h => by
    obtain ⟨hpart, h⟩ := List.forall_mem_cons.mp h
    rw [List.intercalate_cons_cons, isVisible_append, isVisible_append]
    exact ⟨⟨hpart, hsep⟩, isVisible_intercalate hsep h⟩

/-! ## Numbers -/

theorem isVisible_of_isDigit {cs : List Char} (h : ∀ c ∈ cs, c.isDigit = true) : IsVisible cs := by
  intro c hc
  have hdigit := h c hc
  simp only [Char.isDigit, Bool.and_eq_true, decide_eq_true_eq] at hdigit
  exact Nat.le_trans (by decide) hdigit.1

theorem isVisible_digitsOf (n : Nat) : IsVisible (Decimal.digitsOf n) :=
  isVisible_of_isDigit fun _ hc => Nat.isDigit_of_mem_toDigits (by decide) (by decide) hc

theorem isVisible_repr (n : Nat) : IsVisible n.repr.toList := by
  rw [Nat.repr_eq_ofList_toDigits, String.toList_ofList]
  exact isVisible_digitsOf n

theorem isVisible_int : ∀ i : Int, IsVisible (toString i).toList
  | .ofNat n => isVisible_repr n
  | .negSucc n => by
    have htext : toString (Int.negSucc n) = "-" ++ n.succ.repr := rfl
    rw [htext, String.toList_append, isVisible_append]
    exact ⟨by decide, isVisible_repr _⟩

theorem isVisible_replicate (n : Nat) : IsVisible (List.replicate n '0') := by
  intro c hc
  rw [List.eq_of_mem_replicate hc]
  decide

theorem isVisible_positionalText {pointZero : Bool} {ds : List Char} {exponent : Int}
    (h : IsVisible ds) : IsVisible (Decimal.positionalText pointZero ds exponent) := by
  have htake : ∀ k, IsVisible (ds.take k) := fun k c hc => h c (List.mem_of_mem_take hc)
  have hdrop : ∀ k, IsVisible (ds.drop k) := fun k c hc => h c (List.mem_of_mem_drop hc)
  unfold Decimal.positionalText
  dsimp only
  split
  · rw [isVisible_append, isVisible_append]
    refine ⟨⟨h, isVisible_replicate _⟩, ?_⟩
    cases pointZero <;> decide
  split
  · rw [isVisible_append, isVisible_cons]
    exact ⟨htake _, by decide, hdrop _⟩
  · rw [isVisible_append, isVisible_cons, isVisible_cons]
    exact ⟨⟨by decide, by decide, isVisible_replicate _⟩, h⟩

theorem isVisible_scientificText {plus : Bool} {ds : List Char} {power : Int} (h : IsVisible ds) :
    IsVisible (Decimal.scientificText plus ds power) := by
  unfold Decimal.scientificText
  dsimp only
  rw [List.append_assoc, isVisible_append, isVisible_append, isVisible_cons]
  refine ⟨?_, ⟨by decide, ?_⟩, isVisible_digitsOf _⟩
  · split
    · exact h
    · exact h
    · rw [isVisible_cons] at h
      rw [isVisible_cons, isVisible_cons]
      exact ⟨h.1, by decide, h.2⟩
  · split
    · decide
    · split <;> decide

theorem isVisible_decimal (d : Decimal) : IsVisible (d.text numberStyle).toList := by
  have hbody : ∀ cs : List Char, IsVisible cs →
      IsVisible (if d.negative = true then '-' :: cs else cs) := by
    intro cs h
    split
    · exact isVisible_cons.mpr ⟨by decide, h⟩
    · exact h
  unfold Decimal.text
  dsimp only
  rw [String.toList_ofList]
  refine hbody _ ?_
  split
  · exact isVisible_positionalText (by decide)
  split
  · exact isVisible_positionalText (isVisible_digitsOf _)
  · exact isVisible_scientificText (isVisible_digitsOf _)

theorem isVisible_double (x : Double) : IsVisible (x.text numberStyle).toList := by
  unfold Binary.text
  split
  · decide
  split
  · split <;> decide
  · exact isVisible_decimal _

/-! ## Strings -/

theorem isVisible_escapedChar (c : Char) : IsVisible (escapedChar c) := by
  have hhex : ∀ n < 16, 0x20 ≤ (hexDigit n).toNat := by decide
  unfold escapedChar
  repeat' split
  all_goals try decide
  · simp only [isVisible_cons]
    exact ⟨by decide, by decide, by decide, by decide, hhex _ (by omega), hhex _ (by omega),
      by simp [IsVisible]⟩
  · simp only [isVisible_cons]
    exact ⟨by omega, by simp [IsVisible]⟩

theorem isVisible_stringText (s : String) : IsVisible (stringText s).toList := by
  have hflat : IsVisible (s.toList.flatMap escapedChar) := by
    intro c hc
    obtain ⟨d, -, hd⟩ := List.mem_flatMap.mp hc
    exact isVisible_escapedChar d c hd
  rw [stringText, String.toList_ofList, isVisible_append, isVisible_cons]
  exact ⟨⟨by decide, hflat⟩, by decide⟩

/-! ## Values -/

mutual

theorem isVisible_text : ∀ j : Json, IsVisible j.text.toList
  | .null => by decide
  | .unheld => by decide
  | .bool b => by cases b <;> decide
  | .int i => isVisible_int i
  | .double x => isVisible_double x
  | .string s => isVisible_stringText s
  | .array items => by
    rw [text, String.toList_append, String.toList_append, String.toList_intercalate,
      isVisible_append, isVisible_append]
    refine ⟨⟨by decide, isVisible_intercalate (by decide) ?_⟩, by decide⟩
    exact List.forall_mem_map.mpr (isVisible_itemTexts items)
  | .object members => by
    rw [text, String.toList_append, String.toList_append, String.toList_intercalate,
      isVisible_append, isVisible_append]
    refine ⟨⟨by decide, isVisible_intercalate (by decide) ?_⟩, by decide⟩
    exact List.forall_mem_map.mpr (isVisible_memberTexts members)

theorem isVisible_itemTexts : ∀ items : List Json, ∀ part ∈ itemTexts items, IsVisible part.toList
  | [] => by simp [itemTexts]
  | j :: rest => List.forall_mem_cons.mpr ⟨isVisible_text j, isVisible_itemTexts rest⟩

theorem isVisible_memberTexts : ∀ members : List (String × Json),
    ∀ part ∈ memberTexts members, IsVisible part.toList
  | [] => by simp [memberTexts]
  | (k, j) :: rest => by
    refine List.forall_mem_cons.mpr ⟨?_, isVisible_memberTexts rest⟩
    rw [String.toList_append, String.toList_append, isVisible_append, isVisible_append]
    exact ⟨⟨isVisible_stringText k, by decide⟩, isVisible_text j⟩

end

end Dataflow.Json

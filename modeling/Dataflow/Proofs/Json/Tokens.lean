import Dataflow.Json.Reader
import Dataflow.Proofs.Number.Rounding
import Dataflow.Proofs.Pass
import Dataflow.Proofs.Text.Separation

/-!
# Strings and numbers that are read back

The reader takes a string from its text with all characters that are escaped in it
(`stringTail_text`), and a whole number that fits its width from its digits (`takeNumber_int`).
Where a number ends is told by what follows it, so one that is a whole text is also taken from the
front of a longer one (`takeNumber_append`).
-/

namespace Dataflow.Json

open Text (EndsWord)

/-! ## Strings -/

theorem hexValue?_hexDigit : ∀ n < 16, Text.hexValue? (hexDigit n) = some n := by decide

theorem stringTail_control (lenient : Bool) {c : Char} (h : c.toNat < 0x20) (rest : List Char) :
    stringTail lenient ('\\' :: 'u' :: '0' :: '0' :: hexDigit (c.toNat / 16) ::
      hexDigit (c.toNat % 16) :: rest) = prepend c (stringTail lenient rest) := by
  have hunit : hex4? '0' '0' (hexDigit (c.toNat / 16)) (hexDigit (c.toNat % 16)) =
      some c.toNat := by
    have hzero : Text.hexValue? '0' = some 0 := by decide
    simp only [hex4?, hzero, hexValue?_hexDigit (c.toNat / 16) (by omega),
      hexValue?_hexDigit (c.toNat % 16) (by omega), Option.bind_eq_bind, Option.bind_some,
      Option.pure_def, Option.some.injEq]
    omega
  have hfirst : isFirstHalf c.toNat = false := by simp [isFirstHalf]; omega
  have hsecond : isSecondHalf c.toNat = false := by simp [isSecondHalf]; omega
  rw [stringTail, hunit]
  simp only [hfirst, hsecond, Bool.false_eq_true, if_false, Char.ofNat_toNat]

theorem stringTail_plain (lenient : Bool) {c : Char} (hquote : c ≠ '"') (hslash : c ≠ '\\')
    (hvisible : ¬c.toNat < 0x20) (rest : List Char) :
    stringTail lenient (c :: rest) = prepend c (stringTail lenient rest) := by
  rw [stringTail]
  · exact if_neg hvisible
  all_goals simp_all

/-- What stands for a character in a string is read as that character. -/
theorem stringTail_escapedChar (lenient : Bool) (c : Char) (rest : List Char) :
    stringTail lenient (escapedChar c ++ rest) = prepend c (stringTail lenient rest) := by
  have hcode : ∀ {n : Nat}, c.toNat = n → c = Char.ofNat n := fun h => by rw [← h, Char.ofNat_toNat]
  unfold escapedChar
  split
  · next h => subst h; rfl
  split
  · next h => subst h; rfl
  split
  · next h => subst h; rfl
  split
  · next h => subst h; rfl
  split
  · next h => subst h; rfl
  split
  · next h => rw [hcode h]; rfl
  split
  · next h => rw [hcode h]; rfl
  split
  · next h => exact stringTail_control lenient h rest
  · next hquote hslash _ _ _ _ _ hvisible =>
    exact stringTail_plain lenient hquote hslash hvisible rest

theorem stringTail_text (lenient : Bool) (rest : List Char) : ∀ cs : List Char,
    stringTail lenient (cs.flatMap escapedChar ++ '"' :: rest) = .ok (some cs, rest)
  | [] => rfl
  | c :: cs => by
    rw [List.flatMap_cons, List.append_assoc, stringTail_escapedChar,
      stringTail_text lenient rest cs]
    rfl

/-! ## Numbers -/

/-- Whether what stands behind a number does not go on with it. -/
def EndsNumber (rest : List Char) : Prop :=
  EndsWord (fun c => c.isDigit || c == '.' || c == 'e' || c == 'E') rest

theorem EndsNumber.endsDigits {rest : List Char} (h : EndsNumber rest) :
    EndsWord Char.isDigit rest := by
  intro c hc
  have := h c hc
  simp_all

theorem spanDigits_append {rest : List Char} (hrest : EndsWord Char.isDigit rest) :
    ∀ text : List Char, spanDigits (text ++ rest) =
      ((spanDigits text).1, (spanDigits text).2 ++ rest)
  | [] => by
    cases rest with
    | nil => rfl
    | cons c rest =>
      have hc : c.isDigit = false := hrest c rfl
      simp [spanDigits, hc]
  | c :: text => by
    have ih := spanDigits_append hrest text
    simp only [spanDigits, Prod.mk.injEq] at ih ⊢
    by_cases hc : c.isDigit <;> simp [hc, ih]

theorem spanDigits_of_isDigit : ∀ {ds : List Char}, (∀ c ∈ ds, c.isDigit = true) →
    spanDigits ds = (ds, [])
  | [], _ => rfl
  | d :: ds, h => by
    obtain ⟨hd, hds⟩ := List.forall_mem_cons.mp h
    have ih := spanDigits_of_isDigit hds
    simp only [spanDigits, Prod.mk.injEq] at ih ⊢
    simp [hd, ih]

/-- Whether digits are those of a whole number: there is one, and the first is no zero that another
follows. -/
def IsWhole (ds : List Char) : Prop := ds ≠ [] ∧ ∀ d rest, ds ≠ '0' :: d :: rest

theorem takeWhole_eq_ok {text ds behind : List Char} :
    takeWhole text = .ok (ds, behind) ↔ spanDigits text = (ds, behind) ∧ IsWhole ds := by
  unfold takeWhole
  generalize spanDigits text = span
  constructor
  · intro h
    split at h
    · cases h
    · cases h
    · cases h
    · next hnone hzero =>
      obtain ⟨rfl, rfl⟩ := Prod.mk.inj (Except.ok.inj h)
      exact ⟨rfl, hnone, hzero⟩
  · rintro ⟨rfl, hne, hzero⟩
    split
    · next h => exact absurd (Prod.mk.inj h).1 hne
    · next h => exact absurd (Prod.mk.inj h).1 hne
    · next h => exact absurd (Prod.mk.inj h).1 (hzero _ _)
    · next h =>
      obtain ⟨rfl, rfl⟩ := Prod.mk.inj h
      rfl

theorem takeWhole_append {text behind rest ds : List Char} (hrest : EndsNumber rest)
    (h : takeWhole text = .ok (ds, behind)) :
    takeWhole (text ++ rest) = .ok (ds, behind ++ rest) := by
  obtain ⟨hspan, hwhole⟩ := takeWhole_eq_ok.mp h
  exact takeWhole_eq_ok.mpr ⟨by rw [spanDigits_append hrest.endsDigits, hspan], hwhole⟩

/-- Digits of which there has to be one are taken if there is one. -/
theorem someDigits_eq_ok {α : Type} {make : List Char → α} {span : List Char × List Char}
    {behind : List Char} {a : α} :
    (match span with
      | ([], []) => stopAtEnd .endInValue
      | ([], rest) => stopAt .badNumber rest
      | (ds, rest) => .ok (make ds, rest)) = .ok (a, behind) ↔
      ∃ ds, span = (ds, behind) ∧ ds ≠ [] ∧ a = make ds := by
  constructor
  · intro h
    split at h
    · cases h
    · cases h
    · next hnone =>
      obtain ⟨rfl, rfl⟩ := Prod.mk.inj (Except.ok.inj h)
      exact ⟨_, rfl, hnone, rfl⟩
  · rintro ⟨ds, rfl, hne, rfl⟩
    split
    · next h => exact absurd (Prod.mk.inj h).1 hne
    · next h => exact absurd (Prod.mk.inj h).1 hne
    · next h =>
      obtain ⟨rfl, rfl⟩ := Prod.mk.inj h
      rfl

theorem takeFraction_point_eq_ok {text behind : List Char} {places : Option (List Char)} :
    takeFraction ('.' :: text) = .ok (places, behind) ↔
      ∃ ds, spanDigits text = (ds, behind) ∧ ds ≠ [] ∧ places = some ds := by
  rw [takeFraction]
  exact someDigits_eq_ok

theorem takeFraction_of_ne {text : List Char} (h : text.head? ≠ some '.') :
    takeFraction text = .ok (none, text) := by
  unfold takeFraction
  split
  · exact absurd rfl h
  · rfl

theorem takeFraction_append {text behind rest : List Char} {places : Option (List Char)}
    (hrest : EndsNumber rest) (h : takeFraction text = .ok (places, behind)) :
    takeFraction (text ++ rest) = .ok (places, behind ++ rest) := by
  by_cases hpoint : text.head? = some '.'
  · obtain ⟨text, rfl⟩ := List.head?_eq_some_iff.mp hpoint
    obtain ⟨ds, hspan, hne, rfl⟩ := takeFraction_point_eq_ok.mp h
    exact takeFraction_point_eq_ok.mpr
      ⟨ds, (spanDigits_append hrest.endsDigits text).trans (by rw [hspan]), hne, rfl⟩
  · rw [takeFraction_of_ne hpoint] at h
    obtain ⟨rfl, rfl⟩ := Prod.mk.inj (Except.ok.inj h)
    refine takeFraction_of_ne fun hpoint' => ?_
    cases text with
    | nil => exact absurd (hrest '.' hpoint') (by decide)
    | cons c text => exact hpoint hpoint'

theorem takeExponent_mark_eq_ok {c : Char} (hc : (c == 'e' || c == 'E') = true)
    {text behind : List Char} {exponent : Option (Bool × List Char)} :
    takeExponent (c :: text) = .ok (exponent, behind) ↔
      ∃ ds, spanDigits (Decimal.splitSign text).2 = (ds, behind) ∧ ds ≠ [] ∧
        exponent = some ((Decimal.splitSign text).1, ds) := by
  rw [takeExponent, if_pos hc]
  exact someDigits_eq_ok

theorem takeExponent_of_ne {text : List Char}
    (h : ∀ c ∈ text.head?, (c == 'e' || c == 'E') = false) :
    takeExponent text = .ok (none, text) := by
  unfold takeExponent
  split
  · rfl
  · next c rest =>
    rw [if_neg (by simpa using h c rfl)]

theorem splitSign_append (rest : List Char) : ∀ {text : List Char}, text ≠ [] →
    Decimal.splitSign (text ++ rest) =
      ((Decimal.splitSign text).1, (Decimal.splitSign text).2 ++ rest)
  | [], h => absurd rfl h
  | c :: text, _ => by
    rw [List.cons_append]
    unfold Decimal.splitSign
    split <;> simp_all

theorem takeExponent_append {text behind rest : List Char}
    {exponent : Option (Bool × List Char)} (hrest : EndsNumber rest)
    (h : takeExponent text = .ok (exponent, behind)) :
    takeExponent (text ++ rest) = .ok (exponent, behind ++ rest) := by
  by_cases hmark : ∀ c ∈ text.head?, (c == 'e' || c == 'E') = false
  · rw [takeExponent_of_ne hmark] at h
    obtain ⟨rfl, rfl⟩ := Prod.mk.inj (Except.ok.inj h)
    refine takeExponent_of_ne fun c hc => ?_
    cases text with
    | nil =>
      have := hrest c hc
      simp_all
    | cons d text => exact hmark c hc
  · push Not at hmark
    obtain ⟨c, hhead, hc⟩ := hmark
    obtain ⟨text, rfl⟩ := List.head?_eq_some_iff.mp hhead
    have hc := (Bool.not_eq_false _).mp hc
    obtain ⟨ds, hspan, hne, rfl⟩ := (takeExponent_mark_eq_ok hc).mp h
    have htext : text ≠ [] := by
      rintro rfl
      exact hne (Prod.mk.inj hspan).1.symm
    rw [List.cons_append]
    refine (takeExponent_mark_eq_ok hc).mpr ⟨ds, ?_, hne, ?_⟩
    · rw [splitSign_append rest htext, spanDigits_append hrest.endsDigits, hspan]
    · rw [splitSign_append rest htext]

/-- Takes a number behind its sign. -/
def takeUnsigned (lenient minus : Bool) (text : List Char) : Except Stop (Taken Json) := do
  let (whole, rest) ← takeWhole text
  let (places, rest) ← takeFraction rest
  let (exponent, rest) ← takeExponent rest
  match ofNumber minus whole places exponent with
  | .ok j => return (j, rest)
  | .error digits =>
    if lenient then return (.unheld, rest)
    else throw { cause := .outOfRange, left := byteCount rest + digits }

theorem takeNumber_of_ne (lenient : Bool) {text : List Char} (h : text.head? ≠ some '-') :
    takeNumber lenient text = takeUnsigned lenient false text := by
  unfold takeNumber
  split
  · next hsign =>
    split at hsign
    · exact absurd rfl h
    · obtain ⟨rfl, rfl⟩ := Prod.mk.inj hsign
      rfl

theorem takeUnsigned_append {lenient minus : Bool} {text rest : List Char} {j : Json}
    (hrest : EndsNumber rest) (h : takeUnsigned lenient minus text = .ok (j, [])) :
    takeUnsigned lenient minus (text ++ rest) = .ok (j, rest) := by
  obtain ⟨⟨whole, behind⟩, hwhole, h⟩ := Pass.except_bind_eq_ok.mp h
  obtain ⟨⟨places, behind'⟩, hplaces, h⟩ := Pass.except_bind_eq_ok.mp h
  obtain ⟨⟨exponent, behind''⟩, hexponent, h⟩ := Pass.except_bind_eq_ok.mp h
  unfold takeUnsigned
  simp only [takeWhole_append hrest hwhole, takeFraction_append hrest hplaces,
    takeExponent_append hrest hexponent, Pass.except_ok_bind]
  dsimp only at h
  split at h
  · obtain ⟨rfl, rfl⟩ := Prod.mk.inj (Except.ok.inj h)
    rfl
  split at h
  · next hlenient =>
    obtain ⟨rfl, rfl⟩ := Prod.mk.inj (Except.ok.inj h)
    rw [if_pos hlenient]
    rfl
  · cases h

/-- A number begins with a sign or a digit. -/
theorem exists_of_takeNumber {lenient : Bool} {text behind : List Char} {j : Json}
    (h : takeNumber lenient text = .ok (j, behind)) :
    ∃ c rest, text = c :: rest ∧ (c = '-' ∨ c.isDigit = true) := by
  cases text with
  | nil => cases h
  | cons c rest =>
    refine ⟨c, rest, rfl, Classical.or_iff_not_imp_left.mpr fun hc => ?_⟩
    rw [takeNumber_of_ne lenient (by simpa using hc)] at h
    obtain ⟨⟨whole, behind⟩, hwhole, -⟩ := Pass.except_bind_eq_ok.mp h
    obtain ⟨hspan, hne, -⟩ := takeWhole_eq_ok.mp hwhole
    by_contra hdigit
    simp [spanDigits, hdigit] at hspan
    exact hne hspan.1

/-- A number that is taken from a text is taken from what begins with the text. -/
theorem takeNumber_append {lenient : Bool} {text rest : List Char} {j : Json}
    (hrest : EndsNumber rest) (h : takeNumber lenient text = .ok (j, [])) :
    takeNumber lenient (text ++ rest) = .ok (j, rest) := by
  obtain ⟨c, text, rfl, -⟩ := exists_of_takeNumber h
  by_cases hc : c = '-'
  · subst hc
    exact takeUnsigned_append hrest h
  · rw [takeNumber_of_ne lenient (by simpa using hc)] at h ⊢
    exact takeUnsigned_append hrest h

/-! ## Whole numbers -/

theorem head_toDigits {n : Nat} : (Nat.toDigits 10 n).head? = some '0' → n = 0 := by
  induction n using Nat.strong_induction_on with
  | _ n ih =>
    intro h
    rcases Nat.lt_or_ge n 10 with hn | hn
    · rw [Nat.toDigits_of_lt_base hn] at h
      have hdigits : ∀ m < 10, [m.digitChar].head? = some '0' → m = 0 := by decide
      exact hdigits n hn h
    · rw [Nat.toDigits_of_base_le (by decide) hn,
        List.head?_append_of_ne_nil _ Nat.toDigits_ne_nil] at h
      have := ih (n / 10) (by omega) h
      omega

theorem isWhole_toDigits (n : Nat) : IsWhole (Nat.toDigits 10 n) := by
  refine ⟨Nat.toDigits_ne_nil, fun d rest h => ?_⟩
  obtain rfl := head_toDigits (by rw [h]; rfl)
  cases h

theorem takeWhole_toDigits (n : Nat) :
    takeWhole (Nat.toDigits 10 n) = .ok (Nat.toDigits 10 n, []) := by
  refine takeWhole_eq_ok.mpr ⟨spanDigits_of_isDigit fun c hc => ?_, isWhole_toDigits n⟩
  exact Nat.isDigit_of_mem_toDigits (by decide) (by decide) hc

theorem foldl_toDigits (n : Nat) :
    (Nat.toDigits 10 n).foldl (fun n d => n * 10 + Text.digitValue d) 0 = n := by
  have hstep : (fun (n : Nat) d => n * 10 + Text.digitValue d) =
      fun n d => 10 * n + (d.toNat - '0'.toNat) := by
    funext n d
    rw [Nat.mul_comm]
    rfl
  rw [hstep]
  exact Nat.ofDigitChars_ten_toDigits

theorem takeUnsigned_toDigits (lenient minus : Bool) (n : Nat) {j : Json}
    (h : ofNumber minus (Nat.toDigits 10 n) none none = .ok j) :
    takeUnsigned lenient minus (Nat.toDigits 10 n) = .ok (j, []) := by
  simp only [takeUnsigned, takeWhole_toDigits, takeFraction, takeExponent, Pass.except_ok_bind, h]
  rfl

theorem ofNumber_toDigits {n : Nat} (h : n < 2 ^ 64) :
    ofNumber false (Nat.toDigits 10 n) none none = .ok (.int n) := by
  unfold ofNumber
  dsimp only
  rw [foldl_toDigits, if_pos (by rw [Binary.twoPow_eq]; simpa using h)]

theorem ofNumber_minus_toDigits {n : Nat} (hpos : 0 < n) (h : n ≤ 2 ^ 63) :
    ofNumber true (Nat.toDigits 10 n) none none = .ok (.int (-n)) := by
  unfold ofNumber
  dsimp only
  rw [foldl_toDigits, if_neg (by simp), if_pos (by rw [Binary.twoPow_eq]; simpa [hpos] using h)]

theorem repr_toList (n : Nat) : n.repr.toList = Nat.toDigits 10 n := by
  rw [Nat.repr_eq_ofList_toDigits, String.toList_ofList]

/-- A whole number that fits its width is read from its digits. -/
theorem takeNumber_int (lenient : Bool) {i : Int} (hlow : -2 ^ 63 ≤ i) (hhigh : i < 2 ^ 64) :
    takeNumber lenient (toString i).toList = .ok (.int i, []) := by
  cases i with
  | ofNat n =>
    rw [Int.ofNat_eq_natCast] at hhigh
    have hdigit : (Nat.toDigits 10 n).head? ≠ some '-' := by
      intro hhead
      have hminus := Nat.isDigit_of_mem_toDigits (b := 10) (by decide) (by decide)
        (List.mem_of_head? hhead)
      exact absurd hminus (by decide)
    rw [show toString (Int.ofNat n) = n.repr from rfl, repr_toList, takeNumber_of_ne lenient hdigit]
    exact takeUnsigned_toDigits lenient false n (ofNumber_toDigits (by omega))
  | negSucc n =>
    rw [show toString (Int.negSucc n) = "-" ++ (n + 1).repr from rfl, String.toList_append,
      repr_toList]
    exact takeUnsigned_toDigits lenient true (n + 1) (ofNumber_minus_toDigits (by omega) (by omega))

end Dataflow.Json

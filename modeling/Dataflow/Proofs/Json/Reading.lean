import Dataflow.Json.Reader
import Dataflow.Proofs.Number.Rounding
import Dataflow.Proofs.Pass

/-!
# Numbers that are read

A reader takes no number that is not one: whole numbers that it keeps fit 64 bits, with or without a
sign, and all others are finite (`inRange_of_read`).
-/

namespace Dataflow.Json

open Binary

/-! ## Values in range -/

mutual

/-- Whether all numbers in a value are such as a text can give: whole ones fit 64 bits, with a sign
or without one, and others are finite. -/
def InRange : Json → Prop
  | .int i => -2 ^ 63 ≤ i ∧ i < 2 ^ 64
  | .double x => x.isFinite
  | .array items => ItemsInRange items
  | .object members => MembersInRange members
  | _ => True
termination_by structural j => j

def ItemsInRange : List Json → Prop
  | [] => True
  | j :: rest => InRange j ∧ ItemsInRange rest
termination_by structural items => items

def MembersInRange : List (String × Json) → Prop
  | [] => True
  | (_, j) :: rest => InRange j ∧ MembersInRange rest
termination_by structural members => members

end

/-! ## Numbers -/

theorem addDigits_le {limit : Nat} : ∀ {ds : List Char} {n added : Nat}, n ≤ limit →
    (addDigits limit ds n added).1 ≤ limit
  | [], _, _, h => h
  | d :: ds, n, added, h => by
    unfold addDigits
    dsimp only
    split
    · exact h
    · exact addDigits_le (by omega)

theorem tenPow_mono {m n : Nat} (h : m ≤ n) : tenPow m ≤ tenPow n :=
  Nat.pow_le_pow_right (by decide) h

theorem isFinite_power {n : Nat} (h : n ≤ maxPower) : (power n).isFinite := by
  have hmax : (power maxPower).isFinite := by decide +kernel
  rw [isFinite_iff, power, magnitude_ofRatio] at hmax ⊢
  exact (roundedMagnitude_mono (tenPow_mono h)).trans_lt hmax

theorem le_magnitude_power (n : Nat) : 1023 * 2 ^ 52 ≤ (power n).magnitude := by
  have hone : roundedMagnitude .double 1 1 = 1023 * 2 ^ 52 := by decide +kernel
  rw [power, magnitude_ofRatio, ← hone]
  exact roundedMagnitude_mono (Nat.pow_pos (by decide))

theorem le_magnitude_maxPower : 1087 * 2 ^ 52 ≤ (power maxPower).magnitude := by decide +kernel

/-- A number that is not large stays finite when it is divided by powers of ten. -/
theorem isFinite_divideByPower {x : Double} {n : Nat} (hx : x.isFinite) (hexp : x.exponent ≤ 13) :
    (divideByPower x n).isFinite := by
  induction n using Nat.strong_induction_on generalizing x with
  | _ n ih =>
    unfold divideByPower
    split
    · next hn =>
      have hle := le_magnitude_power n
      have hpower := exponent_eq (x := power n)
      have hmag := magnitude_div_le (k := 65) hx (isFinite_power hn) (by omega) (by omega)
      rw [isFinite_iff]
      omega
    split
    · exact hx
    · next hn _ =>
      have hle := le_magnitude_maxPower
      have hpower := exponent_eq (x := power maxPower)
      have hmag := magnitude_div_le (k := 1) hx (isFinite_power (Nat.le_refl _)) (by omega)
        (by omega)
      have hdiv := exponent_eq (x := x.div (power maxPower))
      exact ih (n - maxPower) (by simp only [maxPower] at *; omega) (isFinite_iff.mpr (by omega))
        (by omega)

theorem isFinite_scaled? {significand : Nat} {exponent : Int} {x : Double}
    (hsig : significand ≤ maxSignificand) (h : scaled? significand exponent = some x) :
    x.isFinite := by
  have hmax : maxSignificand = 2 ^ 64 - 1 := rfl
  have hmag : (ofInt significand : Double).magnitude ≤ 1088 * 2 ^ 52 :=
    magnitude_ofInt_le (by omega)
  have hwhole : (ofInt significand : Double).isFinite := isFinite_iff.mpr (by omega)
  unfold scaled? at h
  dsimp only at h
  split at h
  · obtain rfl := Option.some.inj h
    have hexp := exponent_eq (x := (ofInt significand : Double))
    exact isFinite_divideByPower hwhole (by omega)
  split at h
  · split at h
    · obtain rfl := Option.some.inj h
      exact hwhole
    · cases h
  split at h
  · cases h
  · next hbig hinf =>
    obtain rfl := Option.some.inj h
    exact isFinite_mul hwhole (isFinite_power (by omega)) (by simpa using hinf)

theorem isFinite_of_numberValue {whole : List Char} {places : Option (List Char)}
    {exponent : Option (Bool × List Char)} {x : Double}
    (h : numberValue whole places exponent = .ok x) : x.isFinite := by
  unfold numberValue at h
  have hwhole := @addDigits_le maxSignificand whole 0 0 (Nat.zero_le _)
  have hn := @addDigits_le maxSignificand (places.getD []) _ 0 hwhole
  generalize addDigits maxSignificand whole 0 0 = a at h hn
  obtain ⟨a, _, skipped⟩ := a
  dsimp only at h hn
  generalize addDigits maxSignificand (places.getD []) a 0 = b at h hn
  obtain ⟨n, added, _⟩ := b
  dsimp only at h hn
  have hscaled : ∀ {e : Int}, ((scaled? n e).map Except.ok).getD (.error 0) = .ok x →
      x.isFinite := by
    intro e h
    cases hx : scaled? n e with
    | none => rw [hx] at h; cases h
    | some y =>
      rw [hx] at h
      obtain rfl := Except.ok.inj h
      exact isFinite_scaled? hn hx
  split at h
  · exact hscaled h
  split at h
  · exact hscaled h
  split at h
  · obtain rfl := Except.ok.inj h
    exact isFinite_zero false
  · cases h

theorem inRange_of_ofNumber {minus : Bool} {whole : List Char} {places : Option (List Char)}
    {exponent : Option (Bool × List Char)} {j : Json}
    (h : ofNumber minus whole places exponent = .ok j) : j.InRange := by
  have hsigned : ∀ {places exponent}, (numberValue whole places exponent).map
      (fun x => Json.double (if minus then x.neg else x)) = .ok j → j.InRange := by
    intro places exponent h
    cases hx : numberValue whole places exponent with
    | error e => rw [hx] at h; cases h
    | ok x =>
      rw [hx] at h
      obtain rfl := Except.ok.inj h
      have hfinite := isFinite_of_numberValue hx
      cases minus
      · exact hfinite
      · exact isFinite_neg hfinite
  unfold ofNumber at h
  dsimp only at h
  split at h
  · split at h
    · next hn =>
      obtain rfl := Except.ok.inj h
      simp only [Bool.and_eq_true, decide_eq_true_eq] at hn
      rw [twoPow_eq] at hn
      exact ⟨by omega, by omega⟩
    split at h
    · next hn =>
      obtain rfl := Except.ok.inj h
      simp only [Bool.and_eq_true, decide_eq_true_eq] at hn
      rw [twoPow_eq] at hn
      exact ⟨by omega, by omega⟩
    · exact hsigned h
  · exact hsigned h

theorem inRange_of_takeNumber {lenient : Bool} {text rest : List Char} {j : Json}
    (h : takeNumber lenient text = .ok (j, rest)) : j.InRange := by
  unfold takeNumber at h
  dsimp only at h
  obtain ⟨⟨whole, behind⟩, -, h⟩ := Pass.except_bind_eq_ok.mp h
  obtain ⟨⟨places, behind⟩, -, h⟩ := Pass.except_bind_eq_ok.mp h
  obtain ⟨⟨exponent, behind⟩, -, h⟩ := Pass.except_bind_eq_ok.mp h
  dsimp only at h
  split at h
  · next hnumber =>
    obtain ⟨rfl, -⟩ := Prod.mk.inj (Except.ok.inj h)
    exact inRange_of_ofNumber hnumber
  · split at h
    · obtain ⟨rfl, -⟩ := Prod.mk.inj (Except.ok.inj h)
      trivial
    · cases h

/-! ## Values -/

theorem inRange_of_takeWord {w : String} {j k : Json} {text rest : List Char}
    (h : takeWord w j text = .ok (k, rest)) (hj : j.InRange) : k.InRange := by
  obtain ⟨behind, -, h⟩ := Pass.except_bind_eq_ok.mp h
  obtain ⟨rfl, -⟩ := Prod.mk.inj (Except.ok.inj h)
  exact hj

theorem inRange_of_holding {α : Type} {make : α → Json} {taken : Option α}
    (h : ∀ a, taken = some a → (make a).InRange) : (holding make taken).InRange := by
  cases taken with
  | none => trivial
  | some a => exact h a rfl

theorem membersInRange_of_consMember {name : Option String} {j : Json}
    {taken : Option (List (String × Json))} {ms : List (String × Json)} (hj : j.InRange)
    (htaken : ∀ ms, taken = some ms → MembersInRange ms) (h : consMember name j taken = some ms) :
    MembersInRange ms := by
  obtain ⟨k, -, h⟩ := Option.bind_eq_some_iff.mp h
  obtain ⟨rest, hrest, h⟩ := Option.bind_eq_some_iff.mp h
  obtain rfl := Option.some.inj h
  exact ⟨hj, htaken rest hrest⟩

mutual

theorem inRange_of_takeValue {lenient : Bool} : ∀ {calls depth : Nat} {text rest : List Char}
    {j : Json}, takeValue lenient depth calls text = .ok (j, rest) → j.InRange
  | 0, _, _, _, _, h => nomatch h
  | calls + 1, depth, text, rest, j, h => by
    unfold takeValue at h
    split at h
    · cases h
    · dsimp only at h
      split at h
      · cases h
      split at h
      · cases h
      · obtain ⟨rfl, -⟩ := Prod.mk.inj (Except.ok.inj h)
        split <;> trivial
      · obtain ⟨⟨js, behind⟩, hjs, h⟩ := Pass.except_bind_eq_ok.mp h
        obtain ⟨rfl, -⟩ := Prod.mk.inj (Except.ok.inj h)
        split
        · trivial
        · exact inRange_of_takeItems hjs
    · dsimp only at h
      split at h
      · cases h
      split at h
      · cases h
      · obtain ⟨rfl, -⟩ := Prod.mk.inj (Except.ok.inj h)
        split <;> trivial
      · obtain ⟨⟨ms, behind⟩, hms, h⟩ := Pass.except_bind_eq_ok.mp h
        obtain ⟨rfl, -⟩ := Prod.mk.inj (Except.ok.inj h)
        split
        · trivial
        · exact inRange_of_holding (inRange_of_takeMembers hms)
    · obtain ⟨⟨cs, behind⟩, -, h⟩ := Pass.except_bind_eq_ok.mp h
      obtain ⟨rfl, -⟩ := Prod.mk.inj (Except.ok.inj h)
      exact inRange_of_holding fun _ _ => trivial
    · exact inRange_of_takeWord h trivial
    · exact inRange_of_takeWord h trivial
    · exact inRange_of_takeWord h trivial
    · split at h
      · exact inRange_of_takeNumber h
      · cases h

theorem inRange_of_takeItems {lenient : Bool} : ∀ {calls depth : Nat} {text rest : List Char}
    {js : List Json}, takeItems lenient depth calls text = .ok (js, rest) → ItemsInRange js
  | 0, _, _, _, _, h => nomatch h
  | calls + 1, depth, text, rest, js, h => by
    unfold takeItems at h
    obtain ⟨⟨j, behind⟩, hj, h⟩ := Pass.except_bind_eq_ok.mp h
    have hj := inRange_of_takeValue hj
    dsimp only at h
    split at h
    · cases h
    · obtain ⟨rfl, -⟩ := Prod.mk.inj (Except.ok.inj h)
      exact ⟨hj, trivial⟩
    · split at h
      · cases h
      · obtain ⟨⟨js, behind⟩, hjs, h⟩ := Pass.except_bind_eq_ok.mp h
        obtain ⟨rfl, -⟩ := Prod.mk.inj (Except.ok.inj h)
        exact ⟨hj, inRange_of_takeItems hjs⟩
    · cases h

theorem inRange_of_takeMembers {lenient : Bool} : ∀ {calls depth : Nat} {text rest : List Char}
    {taken : Option (List (String × Json))},
    takeMembers lenient depth calls text = .ok (taken, rest) → ∀ ms, taken = some ms →
      MembersInRange ms
  | 0, _, _, _, _, h => nomatch h
  | calls + 1, depth, text, rest, taken, h => by
    rintro ms rfl
    unfold takeMembers at h
    obtain ⟨⟨name, behind⟩, -, h⟩ := Pass.except_bind_eq_ok.mp h
    obtain ⟨⟨j, behind⟩, hj, h⟩ := Pass.except_bind_eq_ok.mp h
    have hj := inRange_of_takeValue hj
    dsimp only at h
    split at h
    · cases h
    · obtain ⟨hms, -⟩ := Prod.mk.inj (Except.ok.inj h)
      refine membersInRange_of_consMember hj (fun ms hms => ?_) hms
      obtain rfl := Option.some.inj hms
      trivial
    · split at h
      · cases h
      · cases h
      · obtain ⟨⟨taken, behind⟩, htaken, h⟩ := Pass.except_bind_eq_ok.mp h
        obtain ⟨hms, -⟩ := Prod.mk.inj (Except.ok.inj h)
        exact membersInRange_of_consMember hj (inRange_of_takeMembers htaken) hms
    · cases h

end

/-- All numbers in a value that was read are such as a text can give. -/
theorem inRange_of_read {text : List Char} {j : Json} (h : read text = .ok j) : j.InRange := by
  unfold read at h
  cases htake : takeAll false text with
  | error stop => rw [htake] at h; cases h
  | ok k =>
    rw [htake] at h
    obtain rfl := Except.ok.inj h
    obtain ⟨⟨k, rest⟩, hvalue, h⟩ := Pass.except_bind_eq_ok.mp htake
    dsimp only at h
    split at h
    · obtain rfl := Except.ok.inj h
      exact inRange_of_takeValue hvalue
    · cases h

end Dataflow.Json

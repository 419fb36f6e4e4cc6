import Dataflow.Number.Binary
import Mathlib.Algebra.Ring.Int.Defs
import Mathlib.Algebra.Ring.Nat
import Mathlib.Order.Lattice

/-!
# Rounding whole numbers

Whole numbers that are turned into 64-bit numbers are rounded to 53 significant bits. Rounding does
not change which of two numbers is the larger one, though it may make them equal
(`rank_ofInt_mono`).
-/

namespace Dataflow.Binary

theorem twoPow_eq (n : Nat) : twoPow n = 2 ^ n := rfl

/-! ## Rounding quotients -/

theorem roundDiv_ge (n d : Nat) : n / d ≤ roundDiv n d := by
  unfold roundDiv
  dsimp only
  split <;> omega

theorem roundDiv_le (n d : Nat) : roundDiv n d ≤ n / d + 1 := by
  unfold roundDiv
  dsimp only
  split <;> omega

theorem roundDiv_mono {n m d : Nat} (h : n ≤ m) : roundDiv n d ≤ roundDiv m d := by
  rcases Nat.lt_or_eq_of_le (Nat.div_le_div_right h : n / d ≤ m / d) with hlt | heq
  · have := roundDiv_le n d
    have := roundDiv_ge m d
    omega
  · -- both lie between the same two integers
    have hmod : n % d ≤ m % d := by
      have hn := Nat.div_add_mod n d
      have hm := Nat.div_add_mod m d
      rw [heq] at hn
      omega
    unfold roundDiv
    dsimp only
    rw [heq]
    simp only [Bool.or_eq_true, decide_eq_true_eq, Bool.and_eq_true, beq_iff_eq]
    split_ifs <;> omega

theorem roundDiv_one (n : Nat) : roundDiv n 1 = n := by
  simp [roundDiv, Nat.mod_one]

/-! ## Rounding whole numbers -/

/-- The significand of a positive whole number, rounded to 53 bits. -/
def wholeSignificand (n : Nat) : Nat :=
  if 52 ≤ n.log2 then roundDiv n (2 ^ (n.log2 - 52)) else n * 2 ^ (52 - n.log2)

theorem roundedMagnitude_whole {n : Nat} (hn : n ≠ 0) : roundedMagnitude .double n 1 =
    min ((n.log2 + 1022) * 2 ^ 52 + wholeSignificand n) Format.double.infinity := by
  have hlog : 2 ^ n.log2 ≤ n := Nat.log2_self_le hn
  have hmin : Format.double.minExponent = -1074 := by decide
  have hprec : Format.double.precision = 53 := rfl
  have hone : (1 : Nat).log2 = 0 := by decide
  have h53 : ((53 : Nat) : Int) = 53 := rfl
  have hplace : ((n.log2 : Int) - 0 - 53 + 53).toNat = n.log2 := by omega
  have hfull : (n.log2 : Int) - 0 - 53 + 53 ≥ 0 := by omega
  have hexp : max ((n.log2 : Int) - 0 - 53 + 1) (-1074) = (n.log2 : Int) - 52 := by omega
  have hbias : ((n.log2 : Int) - 52 - -1074).toNat = n.log2 + 1022 := by omega
  -- the leading bit of a whole number fills its place, so the exponent follows from it
  simp only [roundedMagnitude, wholeSignificand, hn, if_false, hmin, hprec, hone, h53, twoPow_eq,
    Int.natCast_zero, hfull, hplace, Nat.one_mul, ge_iff_le, hlog, if_true, hexp, hbias]
  by_cases hbig : 52 ≤ n.log2
  · have hshift : ((n.log2 : Int) - 52).toNat = n.log2 - 52 := by omega
    rw [if_pos (by omega), if_pos hbig, hshift]
  · have hshift : (-((n.log2 : Int) - 52)).toNat = 52 - n.log2 := by omega
    rw [if_neg (by omega), if_neg hbig, hshift, roundDiv_one]

theorem wholeSignificand_bounds {n : Nat} (hn : n ≠ 0) :
    2 ^ 52 ≤ wholeSignificand n ∧ wholeSignificand n ≤ 2 ^ 53 := by
  have hlo : 2 ^ n.log2 ≤ n := Nat.log2_self_le hn
  have hhi : n < 2 ^ (n.log2 + 1) := Nat.lt_log2_self
  unfold wholeSignificand
  split
  · next hbig =>
    have hlow : 2 ^ 52 * 2 ^ (n.log2 - 52) = 2 ^ n.log2 := by rw [← Nat.pow_add]; congr 1; omega
    have hhigh : 2 ^ 53 * 2 ^ (n.log2 - 52) = 2 ^ (n.log2 + 1) := by
      rw [← Nat.pow_add]; congr 1; omega
    have hpos := Nat.two_pow_pos (n.log2 - 52)
    have hge : 2 ^ 52 ≤ n / 2 ^ (n.log2 - 52) := (Nat.le_div_iff_mul_le hpos).mpr (by omega)
    have hlt : n / 2 ^ (n.log2 - 52) < 2 ^ 53 := (Nat.div_lt_iff_lt_mul hpos).mpr (by omega)
    exact ⟨hge.trans (roundDiv_ge _ _), (roundDiv_le _ _).trans hlt⟩
  · next hsmall =>
    have hlow : 2 ^ n.log2 * 2 ^ (52 - n.log2) = 2 ^ 52 := by rw [← Nat.pow_add]; congr 1; omega
    have hhigh : 2 ^ (n.log2 + 1) * 2 ^ (52 - n.log2) = 2 ^ 53 := by
      rw [← Nat.pow_add]; congr 1; omega
    exact ⟨hlow ▸ Nat.mul_le_mul_right _ hlo, hhigh ▸ Nat.mul_le_mul_right _ hhi.le⟩

/-- Within one power of two the significands grow; beyond it, the exponent outweighs them. -/
theorem roundedMagnitude_mono {n m : Nat} (h : n ≤ m) :
    roundedMagnitude .double n 1 ≤ roundedMagnitude .double m 1 := by
  rcases Nat.eq_zero_or_pos n with rfl | hn
  · simp [roundedMagnitude]
  have hn0 : n ≠ 0 := by omega
  have hm0 : m ≠ 0 := by omega
  rw [roundedMagnitude_whole hn0, roundedMagnitude_whole hm0]
  refine Nat.le_min.mpr ⟨(Nat.min_le_left _ _).trans ?_, Nat.min_le_right _ _⟩
  have hlog : n.log2 ≤ m.log2 := (Nat.le_log2 hm0).mpr ((Nat.log2_self_le hn0).trans h)
  rcases Nat.lt_or_eq_of_le hlog with hlt | heq
  · have hn := (wholeSignificand_bounds hn0).2
    have hm := (wholeSignificand_bounds hm0).1
    omega
  · have hsig : wholeSignificand n ≤ wholeSignificand m := by
      unfold wholeSignificand
      rw [heq]
      split
      · exact roundDiv_mono h
      · exact Nat.mul_le_mul_right _ h
    rw [heq]
    omega

theorem roundedMagnitude_lt (n : Nat) : roundedMagnitude .double n 1 < 2 ^ 63 := by
  have hinf : Format.double.infinity < 2 ^ 63 := by decide
  rcases Nat.eq_zero_or_pos n with rfl | hn
  · simp [roundedMagnitude]
  · rw [roundedMagnitude_whole (by omega)]
    exact (Nat.min_le_right _ _).trans_lt hinf

/-! ## The order of rounded numbers -/

instance : Std.TransCmp (order : Double → Double → Ordering) :=
  inferInstanceAs (Std.TransCmp (compareOn rank))

/-- Different patterns have different places in the order. -/
theorem eq_of_rank_eq {x y : Double} (h : x.rank = y.rank) : x = y := by
  have hx := x.bits.isLt
  have hy := y.bits.isLt
  have hwidth : Format.double.width = 64 := rfl
  have hbits : x.bits.toNat = y.bits.toNat := by
    simp only [rank, isNegative, magnitude, hwidth, twoPow_eq, ge_iff_le, decide_eq_true_eq]
      at h hx hy ⊢
    split at h <;> split at h <;> omega
  exact congrArg Binary.mk (BitVec.eq_of_toNat_eq hbits)

instance : Std.LawfulEqCmp (order : Double → Double → Ordering) where
  eq_of_compare h := eq_of_rank_eq (Std.LawfulEqOrd.eq_of_compare h)

theorem rank_ofParts {negative : Bool} {m : Nat} (hm : m < 2 ^ 63) :
    (ofParts negative m : Double).rank = if negative then -(m : Int) - 1 else m := by
  have hwidth : Format.double.width = 64 := rfl
  unfold rank isNegative magnitude ofParts
  cases negative <;> simp [hwidth, twoPow_eq] <;> omega

theorem rank_ofInt (i : Int) : (ofInt i : Double).rank =
    if i < 0 then -(roundedMagnitude .double i.natAbs 1 : Int) - 1
    else roundedMagnitude .double i.natAbs 1 := by
  unfold ofInt ofRatio
  rw [rank_ofParts (roundedMagnitude_lt _)]
  simp

/-- A whole number that is not larger is not rounded to a larger one. -/
theorem rank_ofInt_mono {i j : Int} (h : i ≤ j) :
    (ofInt i : Double).rank ≤ (ofInt j : Double).rank := by
  rw [rank_ofInt, rank_ofInt]
  split <;> split
  · have := roundedMagnitude_mono (n := j.natAbs) (m := i.natAbs) (by omega)
    omega
  · omega
  · omega
  · have := roundedMagnitude_mono (n := i.natAbs) (m := j.natAbs) (by omega)
    omega

/-!
## Finite numbers

A quotient that is not above a power of two is rounded to a number not far above it
(`roundedMagnitude_le`), so that numbers which are not too large stay finite when they are divided.
How large a quotient of two numbers is at most is told by their exponents alone
(`magnitude_div_le`).
-/

section

variable {x y : Double} {n d k : Nat} {s t : Int}

/-! ## Bounds of rounded quotients -/

theorem roundedMagnitude_le_infinity (f : Format) (n d : Nat) :
    roundedMagnitude f n d ≤ f.infinity := by
  unfold roundedMagnitude
  split
  · exact Nat.zero_le _
  · exact Nat.min_le_right _ _

/-- The quotient `n / d` is below `2 ^ t`. -/
def QuotientBelow (n d : Nat) (t : Int) : Prop := n * 2 ^ (-t).toNat < d * 2 ^ t.toNat

theorem quotientBelow_iff {a b : Nat} (h : (b : Int) - a = t) :
    QuotientBelow n d t ↔ n * 2 ^ a < d * 2 ^ b := by
  obtain ⟨c, rfl, rfl⟩ : ∃ c, a = (-t).toNat + c ∧ b = t.toNat + c :=
    ⟨min a b, by omega, by omega⟩
  rw [Nat.pow_add, Nat.pow_add, ← Nat.mul_assoc, ← Nat.mul_assoc,
    Nat.mul_lt_mul_right (Nat.two_pow_pos c)]
  rfl

theorem QuotientBelow.mono (h : QuotientBelow n d s) (hst : s ≤ t) : QuotientBelow n d t := by
  obtain ⟨c, hc⟩ : ∃ c : Nat, t = s + c := ⟨(t - s).toNat, by omega⟩
  refine (quotientBelow_iff (a := (-s).toNat) (b := s.toNat + c) (by omega)).mpr ?_
  calc n * 2 ^ (-s).toNat < d * 2 ^ s.toNat := h
    _ ≤ d * 2 ^ (s.toNat + c) := Nat.mul_le_mul_left _ (Nat.pow_le_pow_right (by omega) (by omega))

theorem quotientBelow_log2 (hd : d ≠ 0) :
    QuotientBelow n d ((n.log2 : Int) - d.log2 + 1) := by
  refine (quotientBelow_iff (a := d.log2) (b := n.log2 + 1) (by omega)).mpr ?_
  calc n * 2 ^ d.log2 < 2 ^ (n.log2 + 1) * 2 ^ d.log2 :=
        Nat.mul_lt_mul_of_pos_right Nat.lt_log2_self (Nat.two_pow_pos _)
    _ ≤ 2 ^ (n.log2 + 1) * d := Nat.mul_le_mul_left _ (Nat.log2_self_le hd)
    _ = d * 2 ^ (n.log2 + 1) := Nat.mul_comm _ _

theorem log2_le_of_le (hn : n ≠ 0) (h : n ≤ d * 2 ^ k) : n.log2 ≤ d.log2 + k := by
  refine Nat.lt_succ_iff.mp ((Nat.log2_lt hn).mpr ?_)
  calc n ≤ d * 2 ^ k := h
    _ < 2 ^ (d.log2 + 1) * 2 ^ k := Nat.mul_lt_mul_of_pos_right Nat.lt_log2_self (Nat.two_pow_pos k)
    _ = 2 ^ (d.log2 + k + 1) := by rw [← Nat.pow_add]; congr 1; omega

theorem roundDiv_le_of_lt {m : Nat} (h : n < d * m) : roundDiv n d ≤ m := by
  have hlt : n / d < m := Nat.div_lt_of_lt_mul h
  have := roundDiv_le n d
  omega

/-- The leading bit of a quotient is at the place of the difference of those of its parts, or one
below, so that the significand fits its bits. -/
theorem roundedMagnitude_le (hd : d ≠ 0) (h : n ≤ d * 2 ^ k) :
    roundedMagnitude .double n d ≤ (k + 1024) * 2 ^ 52 := by
  by_cases hn : n = 0
  · simp [roundedMagnitude, hn]
  have hlog := log2_le_of_le hn h
  have hmin : Format.double.minExponent = -1074 := by decide
  have hprec : Format.double.precision = 53 := rfl
  have h53 : ((53 : Nat) : Int) = 53 := rfl
  simp only [roundedMagnitude, hn, if_false, hmin, hprec, h53, twoPow_eq]
  generalize he : max _ (-1074 : Int) = e
  -- the leading bit fills its place or leaves it to the one below
  have hexp : e ≤ max ((n.log2 : Int) - d.log2 - 52) (-1074) ∧ QuotientBelow n d (e + 53) := by
    have hfull := quotientBelow_log2 (n := n) hd
    generalize hplace : (n.log2 : Int) - d.log2 - 53 + 53 = place at he
    split_ifs at he with hpos hfills hfills
    · exact ⟨by omega, hfull.mono (by omega)⟩
    · have hbelow : QuotientBelow n d place :=
        (quotientBelow_iff (a := 0) (b := place.toNat) (by omega)).mpr (by omega)
      exact ⟨by omega, hbelow.mono (by omega)⟩
    · exact ⟨by omega, hfull.mono (by omega)⟩
    · have hbelow : QuotientBelow n d place :=
        (quotientBelow_iff (a := (-place).toNat) (b := 0) (by omega)).mpr (by omega)
      exact ⟨by omega, hbelow.mono (by omega)⟩
  obtain ⟨hexp, hbelow⟩ := hexp
  refine (Nat.min_le_left _ _).trans ?_
  have hsig : (if e ≥ 0 then roundDiv n (d * 2 ^ e.toNat) else roundDiv (n * 2 ^ (-e).toNat) d) ≤
      2 ^ 53 := by
    split
    · have hlt := (quotientBelow_iff (a := 0) (b := e.toNat + 53) (by omega)).mp hbelow
      exact roundDiv_le_of_lt (by rwa [Nat.mul_assoc, ← Nat.pow_add, ← Nat.mul_one n])
    · exact roundDiv_le_of_lt ((quotientBelow_iff (by omega)).mp hbelow)
  omega

/-! ## Finite numbers -/

theorem double_infinity : Format.double.infinity = 2047 * 2 ^ 52 := by decide

theorem magnitude_ofParts {negative : Bool} {m : Nat} (hm : m < 2 ^ 63) :
    (ofParts negative m : Double).magnitude = m := by
  have hwidth : Format.double.width = 64 := rfl
  unfold magnitude ofParts
  cases negative <;> simp [hwidth, twoPow_eq] <;> omega

theorem magnitude_ofRatio (negative : Bool) (n d : Nat) :
    (ofRatio negative n d : Double).magnitude = roundedMagnitude .double n d := by
  have hle := roundedMagnitude_le_infinity .double n d
  rw [double_infinity] at hle
  exact magnitude_ofParts (by omega)

theorem isFinite_iff : x.isFinite ↔ x.magnitude < 2047 * 2 ^ 52 := by
  rw [isFinite, double_infinity, decide_eq_true_iff]

/-- What is rounded is finite if it is not infinite. -/
theorem isFinite_ofScaled {negative : Bool} {m : Nat} {e : Int}
    (h : (ofScaled negative m e : Double).isInfinite = false) :
    (ofScaled negative m e : Double).isFinite := by
  unfold ofScaled at h ⊢
  split at h <;> rename_i he <;> simp only [he, if_true, if_false] at h ⊢
  all_goals
    rw [isInfinite, beq_eq_false_iff_ne, magnitude_ofRatio] at h
    rw [isFinite, decide_eq_true_iff, magnitude_ofRatio]
    exact lt_of_le_of_ne (roundedMagnitude_le_infinity _ _ _) h

theorem isNaN_eq_false (h : x.isFinite) : x.isNaN = false := by
  rw [isFinite, decide_eq_true_iff] at h
  rw [isNaN, decide_eq_false_iff_not]
  omega

theorem isInfinite_eq_false (h : x.isFinite) : x.isInfinite = false := by
  rw [isFinite, decide_eq_true_iff] at h
  rw [isInfinite, beq_eq_false_iff_ne]
  omega

theorem nanOf?_eq_none (hx : x.isFinite) (hy : y.isFinite) : nanOf? x y = none := by
  simp [nanOf?, isNaN_eq_false hx, isNaN_eq_false hy]

theorem isFinite_zero (negative : Bool) : (zero negative : Double).isFinite := by
  cases negative <;> decide

theorem isFinite_neg (h : x.isFinite) : x.neg.isFinite := by
  rw [isFinite_iff] at h ⊢
  rwa [neg, magnitude_ofParts (by omega)]

theorem isFinite_mul (hx : x.isFinite) (hy : y.isFinite) (h : (x.mul y).isInfinite = false) :
    (x.mul y).isFinite := by
  have hmul : x.mul y = ofScaled (x.isNegative != y.isNegative) (x.significand * y.significand)
      (x.exponent + y.exponent) := by
    simp [mul, nanOf?_eq_none hx hy, isInfinite_eq_false hx, isInfinite_eq_false hy]
  rw [hmul] at h ⊢
  exact isFinite_ofScaled h

/-- Whole numbers of up to 65 bits are rounded to finite numbers. -/
theorem magnitude_ofInt_le {i : Int} (h : i.natAbs ≤ 2 ^ 64) :
    (ofInt i : Double).magnitude ≤ 1088 * 2 ^ 52 := by
  rw [ofInt, magnitude_ofRatio]
  exact roundedMagnitude_le (k := 64) (by omega) (by omega)

theorem isFinite_ofInt {i : Int} (h : i.natAbs ≤ 2 ^ 64) : (ofInt i : Double).isFinite := by
  have := magnitude_ofInt_le h
  rw [isFinite_iff]
  omega

/-! ## Quotients -/

theorem exponent_eq : x.exponent = max (x.magnitude / 2 ^ 52 : Nat) 1 - 1075 := by
  have hmin : Format.double.minExponent = -1074 := by decide
  have hprec : Format.double.precision = 53 := rfl
  simp only [exponent, hmin, hprec, twoPow_eq]
  split <;> omega

theorem significand_lt : x.significand < 2 ^ 53 := by
  have hprec : Format.double.precision = 53 := rfl
  simp only [significand, hprec, twoPow_eq]
  split <;> omega

theorem le_significand (h : 2 ^ 52 ≤ x.magnitude) : 2 ^ 52 ≤ x.significand := by
  have hprec : Format.double.precision = 53 := rfl
  simp only [significand, hprec, twoPow_eq]
  split <;> omega

/-- How large a quotient is at most, by the exponents of its parts. -/
theorem magnitude_div_le (hx : x.isFinite) (hy : y.isFinite) (hnormal : 2 ^ 52 ≤ y.magnitude)
    (hk : x.exponent ≤ y.exponent + k) : (x.div y).magnitude ≤ (k + 1025) * 2 ^ 52 := by
  have hsig : 2 ^ 52 ≤ y.significand := le_significand hnormal
  have hdiv : x.div y = ofRatio (x.isNegative != y.isNegative)
      (x.unitsOf (min x.exponent y.exponent)) (y.unitsOf (min x.exponent y.exponent)) := by
    have hzero : y.isZero = false := by
      rw [isZero, beq_eq_false_iff_ne]
      omega
    simp [div, nanOf?_eq_none hx hy, isInfinite_eq_false hx, isInfinite_eq_false hy, hzero]
  rw [hdiv, magnitude_ofRatio, show k + 1025 = (k + 1) + 1024 from rfl]
  unfold unitsOf
  rw [twoPow_eq, twoPow_eq]
  generalize min x.exponent y.exponent = e at *
  have hshift : (x.exponent - e).toNat ≤ (y.exponent - e).toNat + k := by omega
  refine roundedMagnitude_le (Nat.mul_ne_zero (by omega) (Nat.two_pow_pos _).ne') ?_
  calc x.significand * 2 ^ (x.exponent - e).toNat
      ≤ 2 ^ 53 * 2 ^ ((y.exponent - e).toNat + k) :=
        Nat.mul_le_mul significand_lt.le (Nat.pow_le_pow_right (by omega) hshift)
    _ = 2 ^ 52 * 2 ^ (y.exponent - e).toNat * 2 ^ (k + 1) := by
        rw [← Nat.pow_add, ← Nat.pow_add, ← Nat.pow_add]
        congr 1
        omega
    _ ≤ y.significand * 2 ^ (y.exponent - e).toNat * 2 ^ (k + 1) :=
        Nat.mul_le_mul_right _ (Nat.mul_le_mul_right _ hsig)

end

end Dataflow.Binary

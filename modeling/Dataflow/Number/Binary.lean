import Dataflow.Number.Width

/-!
# Binary floating-point numbers

Numbers of a binary format with a fixed number of significant bits, as exact data: a number is its
bit pattern, and every operation is computed on integers and rounded once, to the nearest number of
the format, a tie going to the one with an even last bit. An operation without a meaningful result
gives a not-a-number whose sign bit is set; one on a not-a-number gives that operand back.
-/

namespace Dataflow

/-- A binary format: how many bits its significands have, the leading one included, and how many
its exponents have. -/
structure Format where
  precision : Nat
  exponentBits : Nat
deriving DecidableEq, Repr

namespace Format

/-- Bits of a number: sign, exponent, and the significand without its leading bit. -/
def width (f : Format) : Nat := f.precision + f.exponentBits

/-- Numbers of 32 bits. -/
def single : Format := ⟨24, 8⟩

/-- Numbers of 64 bits. -/
def double : Format := ⟨53, 11⟩

/-- The exponent of the last place of the smallest numbers. -/
def minExponent (f : Format) : Int := 3 - (twoPow (f.exponentBits - 1) : Int) - f.precision

/-- The pattern of infinity without the sign bit; larger patterns are not numbers. -/
def infinity (f : Format) : Nat := (twoPow f.exponentBits - 1) * twoPow (f.precision - 1)

end Format

/-- A number of a binary format. -/
structure Binary (f : Format) where
  bits : BitVec f.width
deriving DecidableEq

/-- The 32-bit numbers. -/
abbrev Single := Binary .single

/-- The 64-bit numbers. -/
abbrev Double := Binary .double

namespace Binary

variable {f : Format}

/-! ## Parts -/

/-- The number with the given sign and the given pattern of the other bits. -/
def ofParts (negative : Bool) (magnitude : Nat) : Binary f :=
  ⟨BitVec.ofNat _ (if negative then twoPow (f.width - 1) + magnitude else magnitude)⟩

instance : Inhabited (Binary f) := ⟨ofParts false 0⟩

/-- Whether the sign bit is set. -/
def isNegative (x : Binary f) : Bool := x.bits.toNat ≥ twoPow (f.width - 1)

/-- The pattern without the sign bit. It grows with the distance from zero. -/
def magnitude (x : Binary f) : Nat := x.bits.toNat % twoPow (f.width - 1)

def isNaN (x : Binary f) : Bool := x.magnitude > f.infinity

def isInfinite (x : Binary f) : Bool := x.magnitude == f.infinity

def isFinite (x : Binary f) : Bool := x.magnitude < f.infinity

def isZero (x : Binary f) : Bool := x.magnitude == 0

/-- The significand as an integer: the distance from zero is `significand * 2 ^ exponent`. -/
def significand (x : Binary f) : Nat :=
  let unit := twoPow (f.precision - 1)
  if x.magnitude < unit then x.magnitude else unit + x.magnitude % unit

/-- The exponent that goes with the integer significand. -/
def exponent (x : Binary f) : Int :=
  let unit := twoPow (f.precision - 1)
  if x.magnitude < unit then f.minExponent else f.minExponent + (x.magnitude / unit : Nat) - 1

/-! ## Special numbers -/

def zero (negative : Bool) : Binary f := ofParts negative 0

def infinite (negative : Bool) : Binary f := ofParts negative f.infinity

def nan (negative : Bool) : Binary f := ofParts negative (f.infinity + twoPow (f.precision - 2))

/-- The result of an operation without a meaningful one. -/
def invalid : Binary f := nan true

/-! ## Rounding -/

/-- `n / d`, rounded to the nearest integer; a tie goes to the even one. -/
def roundDiv (n d : Nat) : Nat :=
  let q := n / d
  let r := n % d
  if 2 * r > d || (2 * r == d && q % 2 == 1) then q + 1 else q

/-- The pattern of the number nearest to `n / d`, or of infinity if that is too large. The exponent
is chosen so that the significand fills its bits, as far as exponents go down. -/
def roundedMagnitude (f : Format) (n d : Nat) : Nat :=
  if n = 0 then 0 else
  let e : Int := (n.log2 : Int) - d.log2 - f.precision
  let fills := if e + f.precision ≥ 0 then n ≥ d * twoPow (e + f.precision).toNat
    else n * twoPow (-(e + f.precision)).toNat ≥ d
  let e := max (if fills then e + 1 else e) f.minExponent
  let q := if e ≥ 0 then roundDiv n (d * twoPow e.toNat) else roundDiv (n * twoPow (-e).toNat) d
  min ((e - f.minExponent).toNat * twoPow (f.precision - 1) + q) f.infinity

/-- The number nearest to `n / d`, with the given sign. -/
def ofRatio (negative : Bool) (n d : Nat) : Binary f := ofParts negative (roundedMagnitude f n d)

/-- The number nearest to `m * 2 ^ e`, with the given sign. -/
def ofScaled (negative : Bool) (m : Nat) (e : Int) : Binary f :=
  if e ≥ 0 then ofRatio negative (m * twoPow e.toNat) 1 else ofRatio negative m (twoPow (-e).toNat)

/-- The number nearest to an integer. -/
def ofInt (i : Int) : Binary f := ofRatio (i < 0) i.natAbs 1

/-- The same number in another format, rounded if it does not fit. -/
def convert {g : Format} (x : Binary f) : Binary g :=
  if x.isNaN then nan x.isNegative
  else if x.isInfinite then infinite x.isNegative
  else ofScaled x.isNegative x.significand x.exponent

/-! ## Order and equality -/

/-- Where a number stands in the total order of all patterns: from not-a-number with a sign over
`-∞`, `-0`, `0` and `∞` to not-a-number without one. -/
def rank (x : Binary f) : Int := if x.isNegative then -(x.magnitude : Int) - 1 else x.magnitude

/-- The total order of all patterns. -/
def order (x y : Binary f) : Ordering := compare x.rank y.rank

/-- Equality as numbers: the two zeros are equal, and not-a-number equals nothing. -/
def equals (x y : Binary f) : Bool :=
  !x.isNaN && !y.isNaN && (x == y || (x.isZero && y.isZero))

/-! ## Arithmetic -/

def neg (x : Binary f) : Binary f := ofParts (!x.isNegative) x.magnitude

/-- The operand to give back if one of the two is not a number. -/
def nanOf? (x y : Binary f) : Option (Binary f) :=
  if x.isNaN then some x else if y.isNaN then some y else none

/-- The distance of a finite number from zero in units of `2 ^ e`, for an `e` that is not above its
exponent. -/
def unitsOf (x : Binary f) (e : Int) : Nat := x.significand * twoPow (x.exponent - e).toNat

/-- The same with a sign. -/
def signedUnitsOf (x : Binary f) (e : Int) : Int :=
  if x.isNegative then -(x.unitsOf e : Int) else x.unitsOf e

def add (x y : Binary f) : Binary f :=
  match nanOf? x y with
  | some r => r
  | none =>
    if x.isInfinite then
      if y.isInfinite && x.isNegative != y.isNegative then invalid else x
    else if y.isInfinite then y
    else
      let e := min x.exponent y.exponent
      let sum := x.signedUnitsOf e + y.signedUnitsOf e
      if sum = 0 then zero (x.isNegative && y.isNegative)
      else ofScaled (sum < 0) sum.natAbs e

def sub (x y : Binary f) : Binary f := if y.isNaN && !x.isNaN then y else x.add y.neg

def mul (x y : Binary f) : Binary f :=
  match nanOf? x y with
  | some r => r
  | none =>
    let negative := x.isNegative != y.isNegative
    if x.isInfinite || y.isInfinite then
      if x.isZero || y.isZero then invalid else infinite negative
    else ofScaled negative (x.significand * y.significand) (x.exponent + y.exponent)

def div (x y : Binary f) : Binary f :=
  match nanOf? x y with
  | some r => r
  | none =>
    let negative := x.isNegative != y.isNegative
    if x.isInfinite then
      if y.isInfinite then invalid else infinite negative
    else if y.isInfinite then zero negative
    else if y.isZero then
      if x.isZero then invalid else infinite negative
    else
      let e := min x.exponent y.exponent
      ofRatio negative (x.unitsOf e) (y.unitsOf e)

/-- What is left of `x` after taking `y` out of it as often as it fits; it has the sign of `x`. -/
def rem (x y : Binary f) : Binary f :=
  match nanOf? x y with
  | some r => r
  | none =>
    if x.isInfinite || y.isZero then invalid
    else if y.isInfinite then x
    else
      let e := min x.exponent y.exponent
      ofScaled x.isNegative (x.unitsOf e % y.unitsOf e) e

end Binary

end Dataflow

import Dataflow.Number.Binary

/-!
# Decimal text of binary numbers

A `Decimal` is an integer times a power of ten. `Decimal.read?` takes one from text and
`Decimal.nearest` rounds it to a binary format. In the other direction `Binary.shortest` finds, with
exact integers, the decimal with the fewest digits that still rounds to the given number, and among
those the one next to it; a `Decimal.Style` then lays out the digits.
-/

namespace Dataflow

/-- The number `digits * 10 ^ exponent`, with a sign. -/
structure Decimal where
  negative : Bool := false
  digits : Nat
  exponent : Int := 0
deriving DecidableEq, Repr, Inhabited

namespace Decimal

/-! ## Reading -/

/-- The value of a decimal digit. -/
def digit? (c : Char) : Option Nat :=
  if '0' ≤ c ∧ c ≤ '9' then some (c.toNat - '0'.toNat) else none

def isDigit (c : Char) : Bool := (digit? c).isSome

/-- The value of a run of digits, continuing from `acc`. -/
def ofDigits (acc : Nat) : List Char → Nat
  | [] => acc
  | c :: rest => ofDigits (acc * 10 + (digit? c).getD 0) rest

/-- Takes one sign off the front of a text; true for a minus. -/
def splitSign : List Char → Bool × List Char
  | '-' :: rest => (true, rest)
  | '+' :: rest => (false, rest)
  | rest => (false, rest)

/-- Reads an optional exponent, which has to end the text. -/
def readExponent? : List Char → Option Int
  | [] => some 0
  | c :: rest =>
    if c == 'e' || c == 'E' then
      let (minus, ds) := splitSign rest
      if ds.isEmpty || !ds.all isDigit then none
      else some (if minus then -(ofDigits 0 ds : Int) else ofDigits 0 ds)
    else none

/-- Reads digits with at most one point among or beside them, then an optional exponent. At least
one digit is needed. -/
def readUnsigned? (text : List Char) : Option Decimal :=
  let whole := text.takeWhile isDigit
  let rest := text.dropWhile isDigit
  let (places, rest) := match rest with
    | '.' :: r => (r.takeWhile isDigit, r.dropWhile isDigit)
    | r => ([], r)
  if whole.isEmpty && places.isEmpty then none
  else (readExponent? rest).map fun e =>
    { digits := ofDigits (ofDigits 0 whole) places, exponent := e - places.length }

/-- Reads a decimal number with an optional sign. -/
def read? (text : List Char) : Option Decimal :=
  let (minus, rest) := splitSign text
  (readUnsigned? rest).map fun d => { d with negative := minus }

/-! ## Rounding to a binary format -/

/-- Exponents of ten beyond this one lie outside of all formats used here. -/
def exponentBound : Nat := 400

/-- The number of the format that is nearest to the decimal. -/
def nearest {f : Format} (d : Decimal) : Binary f :=
  if d.digits = 0 then .zero d.negative
  else if d.exponent > exponentBound then .infinite d.negative
  else if d.exponent < -(d.digits.log2 : Int) - exponentBound then .zero d.negative
  else if d.exponent ≥ 0 then .ofRatio d.negative (d.digits * tenPow d.exponent.toNat) 1
  else .ofRatio d.negative d.digits (tenPow (-d.exponent).toNat)

end Decimal

/-! ## The fewest digits -/

namespace Binary

variable {f : Format}

/-- Which of two neighbouring decimals stands for a number exactly between them. -/
inductive Tie where
  /-- The one further from zero. -/
  | up
  /-- The one with an even last digit. -/
  | even
deriving DecidableEq, Repr

/-- The decimals with exponent `k` that round to the finite positive number `x`, if there is one: of
the two neighbours of `x`, the nearer that does. Distances are counted in quarters of the last place
of `x`, since the next smaller number may be half as far away as the next larger one. -/
def onGrid? (tie : Tie) (x : Binary f) (k : Int) : Option Nat :=
  let m := x.significand
  let e := x.exponent - 2
  let below := if m = twoPow (f.precision - 1) && x.exponent > f.minExponent then 1 else 2
  let scale := twoPow e.toNat * tenPow (-k).toNat
  let unit := twoPow (-e).toNat * tenPow k.toNat
  let lower := (4 * m - below) * scale
  let upper := (4 * m + 2) * scale
  let value := 4 * m * scale
  let fits (c : Nat) : Bool :=
    c > 0 && (if m % 2 = 0 then lower ≤ c * unit && c * unit ≤ upper
      else lower < c * unit && c * unit < upper)
  let c := value / unit
  let twice := 2 * (value % unit)
  let upward := twice > unit || (twice == unit && (tie == .up || c % 2 == 1))
  match fits c, fits (c + 1) with
  | true, true => some (if upward then c + 1 else c)
  | true, false => some c
  | false, true => some (c + 1)
  | false, false => none

/-- Tries ever finer grids of decimals; seventeen digits always suffice, and the start is at most
three digits too coarse. -/
def searchGrids (tie : Tie) (x : Binary f) : Nat → Int → Decimal
  | 0, k => { digits := (onGrid? tie x k).getD 0, exponent := k }
  | steps + 1, k =>
    match onGrid? tie x k with
    | some c => { digits := c, exponent := k }
    | none => searchGrids tie x steps (k - 1)

/-- The decimal with the fewest digits that rounds to the finite number `x`. -/
def shortest (tie : Tie) (x : Binary f) : Decimal :=
  if x.isZero then { negative := x.isNegative, digits := 0 }
  else
    let top : Int := x.exponent + x.significand.log2 + 1
    { searchGrids tie x 24 (top * 30103 / 100000 + 2) with negative := x.isNegative }

end Binary

/-! ## Layout -/

namespace Decimal

/-- How numbers are written. -/
structure Style where
  /-- Whether a number whose first digit stands for this power of ten is written without one. -/
  positional : Int → Bool
  /-- Whether a whole number written without a power of ten still gets a point and a zero. -/
  pointZero : Bool
  /-- Whether positive powers of ten have a sign. -/
  plus : Bool
  /-- The choice between two equally near decimals. -/
  tie : Binary.Tie
  /-- The texts of what is not a number, of infinity and of its negative. -/
  nan : String
  infinity : String
  negativeInfinity : String

/-- The digits of a natural number. -/
def digitsOf (n : Nat) : List Char := Nat.toDigits 10 n

/-- Digits with the point where the exponent puts it. -/
def positionalText (pointZero : Bool) (ds : List Char) (exponent : Int) : List Char :=
  if exponent ≥ 0 then
    ds ++ List.replicate exponent.toNat '0' ++ (if pointZero then ['.', '0'] else [])
  else
    let places := (-exponent).toNat
    if places < ds.length then ds.take (ds.length - places) ++ '.' :: ds.drop (ds.length - places)
    else '0' :: '.' :: List.replicate (places - ds.length) '0' ++ ds

/-- Digits with a point after the first one and a power of ten. -/
def scientificText (plus : Bool) (ds : List Char) (power : Int) : List Char :=
  let mantissa := match ds with
    | [] => []
    | [d] => [d]
    | d :: rest => d :: '.' :: rest
  let sign := if power < 0 then ['-'] else if plus then ['+'] else []
  mantissa ++ 'e' :: sign ++ digitsOf power.natAbs

/-- A decimal in the given style. -/
def text (style : Style) (d : Decimal) : String :=
  let ds := digitsOf d.digits
  let power : Int := d.exponent + ds.length - 1
  let body :=
    if d.digits = 0 then positionalText style.pointZero ['0'] 0
    else if style.positional power then positionalText style.pointZero ds d.exponent
    else scientificText style.plus ds power
  String.ofList (if d.negative then '-' :: body else body)

end Decimal

/-- A number in the given style, with as few digits as its format needs. -/
def Binary.text {f : Format} (style : Decimal.Style) (x : Binary f) : String :=
  if x.isNaN then style.nan
  else if x.isInfinite then if x.isNegative then style.negativeInfinity else style.infinity
  else (x.shortest style.tie).text style

/-- Reads the text of a number: a decimal or, in any case, `inf`, `infinity` or `nan` with an
optional sign. -/
def Binary.read? {f : Format} (text : List Char) : Option (Binary f) :=
  let (minus, rest) := Decimal.splitSign text
  let word := String.ofList (rest.map Char.toLower)
  if word = "inf" || word = "infinity" then some (.infinite minus)
  else if word = "nan" then some (.nan minus)
  else (Decimal.read? text).map Decimal.nearest

end Dataflow

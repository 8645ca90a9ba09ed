/-!
# Binary64 numbers

A `Double` is kept as its bit pattern, so that every question about it is a question about
natural numbers. This file holds the numerical comparison `same`, and `ofRatio`, which rounds
a fraction to the nearest number, a tie going to the even significand. Decimals become numbers
in two ways: `ofDecimal` rounds once, `scaled?` rounds after each step of the computation.
-/

namespace GmlDecompiler

/-- A binary64 number, given by its bit pattern. -/
structure Double where
  /-- Sign, eleven exponent bits and fifty-two fraction bits, most significant first. -/
  bits : UInt64
  deriving DecidableEq

namespace Double

/-- The number of fractions, `2 ^ 52`. -/
def fractions : Nat := 0x10000000000000

/-- The number of biased exponents, `2 ^ 11`. -/
def exponents : Nat := 0x800

/-- The weight of the sign bit, `2 ^ 63`. -/
def signWeight : Nat := 0x8000000000000000

/-- The sign bit is set. -/
def negative (d : Double) : Bool :=
  signWeight ≤ d.bits.toNat

/-- The biased exponent, `2047` for infinities and NaN. -/
def exponentField (d : Double) : Nat :=
  d.bits.toNat / fractions % exponents

/-- The stored part of the significand. -/
def fractionField (d : Double) : Nat :=
  d.bits.toNat % fractions

/-- The bit pattern is not a number. -/
def isNaN (d : Double) : Bool :=
  d.exponentField == 2047 && d.fractionField != 0

/-- The bit pattern is an infinity of either sign. -/
def isInfinite (d : Double) : Bool :=
  d.exponentField == 2047 && d.fractionField == 0

/-- The bit pattern is a zero of either sign. -/
def isZero (d : Double) : Bool :=
  d.exponentField == 0 && d.fractionField == 0

/-- The integer `m` of the magnitude `m * 2 ^ q` of a finite number. -/
def significand (d : Double) : Nat :=
  if d.exponentField = 0 then d.fractionField else fractions + d.fractionField

/-- The exponent `q` of the magnitude `m * 2 ^ q` of a finite number. -/
def exponent (d : Double) : Int :=
  if d.exponentField = 0 then -1074 else (d.exponentField : Int) - 1075

/-- Numerical equality: a NaN equals nothing, the two zeros equal each other, and other
numbers equal only themselves. -/
def same (a b : Double) : Bool :=
  !a.isNaN && !b.isNaN && (a == b || (a.isZero && b.isZero))

/-- The number with a sign and a magnitude pattern below the sign bit. -/
def ofParts (negative : Bool) (magnitude : Nat) : Double :=
  ⟨(magnitude + if negative then signWeight else 0).toUInt64⟩

/-- The zero with a sign. -/
def zero (negative : Bool) : Double :=
  ofParts negative 0

/-- The infinity with a sign. -/
def infinity (negative : Bool) : Double :=
  ofParts negative (2047 * fractions)

/-- The quotient rounded to the nearest integer, a tie going to the even one. -/
def roundDiv (num den : Nat) : Nat :=
  let floor := num / den
  let twice := 2 * (num % den)
  if twice < den then floor
  else if den < twice then floor + 1
  else floor + floor % 2

/-- The quotient `num / (den * 2 ^ q)` as a fraction of naturals. -/
def scale (num den : Nat) (q : Int) : Nat × Nat :=
  if q < 0 then (num * Nat.pow 2 (-q).toNat, den) else (num, den * Nat.pow 2 q.toNat)

/-- The number nearest to `num / den`, a tie going to the even significand; magnitudes from
half a unit above the largest finite number on become infinite. -/
def ofRatio (negative : Bool) (num den : Nat) : Double :=
  if num = 0 then zero negative
  else
    let estimate : Int := (num.log2 : Int) - den.log2 - 52
    let estimate := if estimate < -1074 then -1074 else estimate
    let (n, d) := scale num den estimate
    let q := if n / d < fractions ∧ -1074 < estimate then estimate - 1 else estimate
    let (n, d) := scale num den q
    let magnitude := (q + 1074).toNat * fractions + roundDiv n d
    if magnitude < 2047 * fractions then ofParts negative magnitude else infinity negative

/-- The magnitude of a finite number as a fraction. -/
def ratio (d : Double) : Nat × Nat :=
  let q := d.exponent
  if q < 0 then (d.significand, Nat.pow 2 (-q).toNat)
  else (d.significand * Nat.pow 2 q.toNat, 1)

/-- The product of two finite numbers, rounded. -/
def product (a b : Double) : Double :=
  ofRatio (a.negative != b.negative) (a.ratio.1 * b.ratio.1) (a.ratio.2 * b.ratio.2)

/-- The quotient of a finite number by a finite number other than zero, rounded. -/
def quotient (a b : Double) : Double :=
  ofRatio (a.negative != b.negative) (a.ratio.1 * b.ratio.2) (a.ratio.2 * b.ratio.1)

/-- The number nearest to an integer. -/
def ofInt (i : Int) : Double :=
  ofRatio (i < 0) i.natAbs 1

/-- The number nearest to `digits * 10 ^ e`. The two early answers keep the powers of ten
small: a positive magnitude of at least `10 ^ 400` is infinite, and one below `10 ^ (-400)` is
zero. -/
def ofDecimal (negative : Bool) (digits : Nat) (e : Int) : Double :=
  if digits = 0 then zero negative
  else if 400 < e then infinity negative
  else if e < -400 - (digits.log2 : Int) then zero negative
  else if e < 0 then ofRatio negative digits (Nat.pow 10 (-e).toNat)
  else ofRatio negative (digits * Nat.pow 10 e.toNat) 1

/-- The number nearest to a power of ten. -/
def powerOfTen (e : Nat) : Double :=
  ofDecimal false 1 e

/-- The integer times a power of ten, each step rounded: the integer becomes a number, which is
multiplied or divided by the number nearest to the power of ten. A power that has no number of
its own is divided by in two steps, and what such steps leave of a 64-bit integer below
`10 ^ (-616)` is zero. None if the result is infinite. -/
def scaled? (negative : Bool) (digits : Nat) (e : Int) : Option Double :=
  if digits = 0 || e < -616 then some (zero negative)
  else
    let d := ofRatio negative digits 1
    if e < -308 then some ((d.quotient (powerOfTen 308)).quotient (powerOfTen (-e - 308).toNat))
    else if e < 0 then some (d.quotient (powerOfTen (-e).toNat))
    else if e ≤ 308 then
      let d := d.product (powerOfTen e.toNat)
      if d.isInfinite then none else some d
    else none

end Double

end GmlDecompiler

import GmlDecompiler.Double.Basic

/-!
# Decimal text of binary64 numbers

The digits of a finite number are the fewest that read back as it; among the decimals of that
length the nearest one is taken. Which of two equally near ones is taken is a choice: the text of
a number takes the larger, and is written positionally, never with an exponent.
-/

namespace GmlDecompiler.Double

/-- Which of two equally near decimals is taken. -/
inductive Tie where
  /-- The larger one. -/
  | up
  /-- The one with an even last digit. -/
  | even
  deriving DecidableEq

/-- A positive decimal `digits * 10 ^ exponent`. -/
structure Decimal where
  /-- The digits as one integer. -/
  digits : Nat
  /-- The power of ten of the last digit. -/
  exponent : Int
  deriving DecidableEq

/-- The magnitude of a finite number and the two ends of the interval of reals that round to
it, as fractions with one denominator. -/
structure Interval where
  /-- Lower end. -/
  low : Nat
  /-- The number itself. -/
  mid : Nat
  /-- Upper end. -/
  high : Nat
  /-- The common denominator. -/
  den : Nat
  /-- The ends themselves round to the number. -/
  closed : Bool

/-- The interval of reals that round to a finite nonzero number. The gap below a power of two
is half the gap above it, except at the bottom of the range. -/
def interval (d : Double) : Interval :=
  let m := d.significand
  let q := d.exponent - 2
  let below := if d.fractionField = 0 ∧ 1 < d.exponentField then 1 else 2
  let num := if q < 0 then 1 else Nat.pow 2 q.toNat
  let den := if q < 0 then Nat.pow 2 (-q).toNat else 1
  ⟨(4 * m - below) * num, 4 * m * num, (4 * m + 2) * num, den, m % 2 == 0⟩

/-- The fraction `num / den` divided by `10 ^ g`, as a fraction of naturals. -/
def overTen (num den : Nat) (g : Int) : Nat × Nat :=
  if g < 0 then (num * Nat.pow 10 (-g).toNat, den) else (num, den * Nat.pow 10 g.toNat)

/-- The decimal `c * 10 ^ g` lies in the interval. -/
def Interval.contains (i : Interval) (c : Nat) (g : Int) : Bool :=
  let (low, den) := overTen i.low i.den g
  let (high, _) := overTen i.high i.den g
  if i.closed then low ≤ c * den && c * den ≤ high else low < c * den && c * den < high

/-- The quotient rounded to the nearest integer. -/
def Tie.roundDiv (tie : Tie) (num den : Nat) : Nat :=
  match tie with
  | .up => (2 * num + den) / (2 * den)
  | .even => Double.roundDiv num den

/-- The nearest decimal on the grid `10 ^ g` that lies in the interval, if one does. -/
def Interval.onGrid (i : Interval) (tie : Tie) (g : Int) : Option Nat :=
  let (num, den) := overTen i.mid i.den g
  let floor := num / den
  match i.contains floor g, i.contains (floor + 1) g with
  | true, true => some (tie.roundDiv num den)
  | true, false => some floor
  | false, true => some (floor + 1)
  | false, false => none

/-- The first grid, from coarse to fine, that meets the interval. -/
def Interval.search (i : Interval) (tie : Tie) : Nat → Int → Decimal
  | 0, g => ⟨(overTen i.mid i.den g).1 / (overTen i.mid i.den g).2, g⟩
  | fuel + 1, g =>
    match i.onGrid tie g with
    | some digits => ⟨digits, g⟩
    | none => i.search tie fuel (g - 1)

/-- The number of decimal places before the first digit: the least `k` with
`num / den < 10 ^ k`, found from above. -/
def magnitudeBound (num den : Nat) : Nat → Int → Int
  | 0, k => k
  | fuel + 1, k =>
    let (n, d) := overTen num den (k - 1)
    if n < d then magnitudeBound num den fuel (k - 1) else k

/-- The shortest decimal of a finite nonzero number. The coarsest grid is that of the next power
of ten, which itself may round to the number. Seventeen digits always suffice, and no magnitude
reaches `10 ^ 309` or falls below `10 ^ (-324)`. -/
def shortest (d : Double) (tie : Tie) : Decimal :=
  let i := d.interval
  let k := magnitudeBound i.mid i.den 640 310
  i.search tie 18 k

/-- A decimal written without an exponent. -/
def Decimal.text (d : Decimal) : String :=
  if 0 ≤ d.exponent then
    toString d.digits ++ String.ofList (List.replicate d.exponent.toNat '0')
  else
    let places := (-d.exponent).toNat
    let digits := (toString d.digits).toList
    let padded := List.replicate (places + 1 - digits.length) '0' ++ digits
    let whole := padded.length - places
    String.ofList (padded.take whole ++ '.' :: padded.drop whole)

/-- The text of a number: its shortest decimal, and the words `NaN` and `inf`. -/
def text (d : Double) : String :=
  if d.isNaN then "NaN"
  else
    let magnitude :=
      if d.isInfinite then "inf" else if d.isZero then "0" else (d.shortest .up).text
    if d.negative then "-" ++ magnitude else magnitude

/-- The digits read as one decimal integer. -/
def digitsValue (digits : List Char) : Nat :=
  digits.foldl (fun n c => 10 * n + (c.toNat - '0'.toNat)) 0

/-- The exponent part of a number text: nothing, or `e` with an optional sign and digits. -/
def exponentOfText? : List Char → Option Int
  | [] => some 0
  | c :: rest =>
    if c = 'e' || c = 'E' then
      let (negative, digits) := match rest with
        | '-' :: rest => (true, rest)
        | '+' :: rest => (false, rest)
        | rest => (false, rest)
      if !digits.isEmpty && digits.all Char.isDigit then
        some (if negative then -(digitsValue digits : Int) else digitsValue digits)
      else none
    else none

/-- The number an unsigned decimal text denotes: digits with at most one point, then an
exponent part. -/
def ofDigits? (negative : Bool) (body : List Char) : Option Double :=
  let whole := body.takeWhile Char.isDigit
  let rest := body.dropWhile Char.isDigit
  let (places, rest) := match rest with
    | '.' :: rest => (rest.takeWhile Char.isDigit, rest.dropWhile Char.isDigit)
    | rest => ([], rest)
  if whole.isEmpty && places.isEmpty then none
  else (exponentOfText? rest).map fun e =>
    ofDecimal negative (digitsValue (whole ++ places)) (e - places.length)

/-- The number a text denotes: an optional sign, then a word for infinity or NaN in any case,
or a decimal. -/
def ofText? (s : String) : Option Double :=
  let (negative, body) := match s.toList with
    | '-' :: rest => (true, rest)
    | '+' :: rest => (false, rest)
    | rest => (false, rest)
  let word := body.map Char.toLower
  if word = "inf".toList || word = "infinity".toList then some (infinity negative)
  else if word = "nan".toList then some (ofParts negative (2047 * fractions + fractions / 2))
  else ofDigits? negative body

end GmlDecompiler.Double

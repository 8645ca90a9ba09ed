import GmlDecompiler.Json.Basic

/-!
# Number literals

A literal is kept digit by digit, because there are two ways to give it a value. `nearest?`
rounds the decimal once. `stepwise?` computes in 64-bit words and floating point, which is off in
the last places for long or large literals. Neither gives an infinite value.
-/

namespace GmlDecompiler

/-- A number literal of JSON text. -/
structure Numeral where
  /-- It has a minus sign. -/
  negative : Bool
  /-- The digits before the point. -/
  whole : List Char
  /-- The digits after the point. -/
  places : List Char
  /-- The exponent. -/
  exponent : Int
  /-- It has neither a point nor an exponent. -/
  isInteger : Bool

namespace Numeral

/-- The digits after the sign of a literal: no leading zero. -/
def wholePart? (body : List Char) : Option (List Char × List Char) :=
  let digits := body.takeWhile Char.isDigit
  let rest := body.dropWhile Char.isDigit
  match digits with
  | [] => none
  | '0' :: _ :: _ => none
  | _ => some (digits, rest)

/-- The places after the point of a literal, if it has one: at least one digit. -/
def placesPart? : List Char → Option (List Char × List Char)
  | '.' :: rest =>
    let digits := rest.takeWhile Char.isDigit
    if digits.isEmpty then none else some (digits, rest.dropWhile Char.isDigit)
  | rest => some ([], rest)

/-- The literal with these characters. -/
def ofChars? (chars : List Char) : Option Numeral :=
  let (negative, body) := match chars with
    | '-' :: rest => (true, rest)
    | rest => (false, rest)
  (wholePart? body).bind fun (whole, rest) =>
  (placesPart? rest).bind fun (places, rest) =>
  (Double.exponentOfText? rest).map fun exponent =>
    ⟨negative, whole, places, exponent, whole.length == body.length⟩

/-- The number nearest to the literal. -/
def nearest? (n : Numeral) : Option Double :=
  let digits := Double.digitsValue (n.whole ++ n.places)
  let d := Double.ofDecimal n.negative digits (n.exponent - n.places.length)
  if d.isInfinite then none else some d

/-- A 64-bit word continued with digits as long as they fit, and the digits left. -/
def gather : (word : Nat) → List Char → Nat × List Char
  | word, [] => (word, [])
  | word, c :: digits =>
    let next := 10 * word + (c.toNat - '0'.toNat)
    if next < UInt64.size then gather next digits else (word, c :: digits)

/-- The number computed step by step. Digits before the point that do not fit the word count as
zeros, those after it are dropped; the word is then scaled by the power of ten. -/
def stepwise? (n : Numeral) : Option Double :=
  let (word, zeros) := gather 0 n.whole
  let (word, dropped) := gather word n.places
  let taken := n.places.length - dropped.length
  Double.scaled? n.negative word (n.exponent + zeros.length - taken)

/-- The integer that the literal is, if it fits a signed or an unsigned 64-bit word. A negative
zero is no integer. -/
def integer? (n : Numeral) : Option Int :=
  let value : Int := Double.digitsValue n.whole
  let signed := if n.negative then -value else value
  if n.isInteger && !(n.negative && value == 0) && -9223372036854775808 ≤ signed
      && signed < 18446744073709551616 then
    some signed
  else none

/-- The value of the literal, given the value of literals that are no integers. -/
def toJson (real? : Numeral → Option Double) (n : Numeral) : Json :=
  match n.integer? with
  | some value => .int value
  | none => (real? n).elim .void .real

end Numeral

end GmlDecompiler

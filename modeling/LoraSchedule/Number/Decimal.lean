import LoraSchedule.Number.Binary

/-!
# Decimal numerals

A decimal numeral is a sign, a coefficient and a power of ten.  `Binary.ofDecimal` reads it as the
nearest binary number; `Decimal.read?` reads the written form used in schedule text.
-/

namespace LoraSchedule.Number

/-- The number `± coefficient · 10 ^ exponent`. -/
structure Decimal where
  negative : Bool
  coefficient : Nat
  exponent : Int
deriving DecidableEq

/-- The value of a digit, for the characters `0` to `9`. -/
def digitValue (c : Char) : Nat := c.toNat - '0'.toNat

/-- The number whose decimal digits these are. -/
def ofDigits (digits : List Char) : Nat :=
  digits.foldl (fun n c => 10 * n + digitValue c) 0

/-- The decimal digits of a number, without leading zeros. -/
def digits (n : Nat) : List Char := Nat.toDigits 10 n

/-- The digits of a number, led by zeros up to a given width. -/
def paddedDigits (width n : Nat) : List Char :=
  List.replicate (width - (digits n).length) '0' ++ digits n

namespace Binary

variable {F : Format}

/-- The number nearest to a decimal numeral.  A power of ten beyond the range of the format for
every coefficient of that many digits is not multiplied out. -/
def ofDecimal (d : Decimal) : Binary F :=
  let reach : Int := Nat.pow 2 F.exponentBits
  if d.coefficient = 0 then zero d.negative
  else if reach < d.exponent then infinite d.negative
  else if d.exponent + (digits d.coefficient).length < -reach then zero d.negative
  else if 0 ≤ d.exponent then
    ofUnits d.negative (d.coefficient * Nat.pow 10 d.exponent.toNat * F.unitsPerOne) 1
  else
    ofUnits d.negative (d.coefficient * F.unitsPerOne) (Nat.pow 10 (-d.exponent).toNat)

end Binary

namespace Decimal

/-- Splits off a leading sign; a numeral without one is positive. -/
def takeSign : List Char → Bool × List Char
  | '-' :: rest => (true, rest)
  | '+' :: rest => (false, rest)
  | text => (false, text)

/-- The power of ten written after the digits: nothing, or `e`, an optional sign and digits. -/
def readExponent? : List Char → Option Int
  | [] => some 0
  | c :: rest =>
    if c = 'e' ∨ c = 'E' then
      let (negative, digits) := takeSign rest
      if digits ≠ [] ∧ digits.all Char.isDigit then
        some (if negative then -(ofDigits digits : Int) else ofDigits digits)
      else none
    else none

/-- Reads `digits`, `digits.`, `.digits` or `digits.digits`, with a sign before it and a power of
ten after it if wanted. -/
def read? (text : List Char) : Option Decimal :=
  let (negative, unsigned) := takeSign text
  let whole := unsigned.takeWhile Char.isDigit
  let (fraction, rest) :=
    match unsigned.dropWhile Char.isDigit with
    | '.' :: rest => (rest.takeWhile Char.isDigit, rest.dropWhile Char.isDigit)
    | rest => ([], rest)
  if whole ++ fraction = [] then none
  else (readExponent? rest).map fun exponent =>
    ⟨negative, ofDigits (whole ++ fraction), exponent - fraction.length⟩

end Decimal

/-- Reads a numeral as the nearest number, unless that is infinite. -/
def readFinite? (text : List Char) : Option Double :=
  (Decimal.read? text).map Binary.ofDecimal |>.filter Binary.isFinite

/-- Reads a whole number with an optional sign, of any size. -/
def readInteger? (text : List Char) : Option Int :=
  let (negative, digits) := Decimal.takeSign text
  if digits ≠ [] ∧ digits.all Char.isDigit then
    some (if negative then -(ofDigits digits : Int) else ofDigits digits)
  else none

end LoraSchedule.Number

import LoraSchedule.Number.Decimal

/-!
# Writing binary numbers in decimal

Two ways to choose the digits of a finite number, both by exact arithmetic on its value:

* `Binary.fixedUnits` counts its value in a fixed decimal place, a half going to the even
  neighbour;
* `Binary.shortest` is the numeral with the fewest digits that reads back as the number and, of
  those, the nearest to it; of two equally near, the one that a `Tie` rule says.

The printers lay the digits out: with a fixed number of places, positionally, or with a power of
ten where the positional form would be long.
-/

namespace LoraSchedule.Number

/-- The whole number nearest to `num / den`; of two equally near, the even one. -/
def divideToEven (num den : Nat) : Nat :=
  let below := num / den
  let rest := num % den
  if 2 * rest < den then below
  else if den < 2 * rest then below + 1
  else below + below % 2

/-- Which of two neighbouring numerals is taken for a number in the middle between them. -/
inductive Tie
  /-- The one with an even last digit. -/
  | toEven
  /-- The one that is further from zero. -/
  | awayFromZero
deriving DecidableEq

/-- Whether the numeral nearer to zero is taken, given its digits. -/
def Tie.takesBelow : Tie → (below : Nat) → Bool
  | toEven, below => below % 2 = 0
  | awayFromZero, _ => false

/-- Moves the decimal point past the last digits of a coefficient as long as they are zeros, at
most `steps` times. -/
def trimZeros : Nat → Nat → Int → Nat × Int
  | 0, coefficient, exponent => (coefficient, exponent)
  | steps + 1, coefficient, exponent =>
    if coefficient % 10 = 0 ∧ coefficient ≠ 0 then trimZeros steps (coefficient / 10) (exponent + 1)
    else (coefficient, exponent)

namespace Binary

variable {F : Format}

/-- The value of a number counted in units of the decimal place `places`, its sign left out. -/
def fixedUnits (places : Nat) (x : Binary F) : Nat :=
  divideToEven (F.units x.magnitude * Nat.pow 10 places) F.unitsPerOne

/-- A sign, if the number is negative. -/
def signText (x : Binary F) : List Char := if x.negative then ['-'] else []

/-- The number with exactly `places` decimals. -/
def toFixed (places : Nat) (x : Binary F) : List Char :=
  if x.isNaN then ['N', 'a', 'N']
  else if x.isInfinite then x.signText ++ ['i', 'n', 'f']
  else
    let text := paddedDigits (places + 1) (x.fixedUnits places)
    let whole := text.take (text.length - places)
    let fraction := text.drop (text.length - places)
    x.signText ++ whole ++ (if places = 0 then [] else '.' :: fraction)

/-- The position of the decimal point before the first digit of `num / den`: the ratio is below
ten to that power and at least a tenth of it. -/
def pointPosition (num den : Nat) : Int :=
  if den ≤ num then (digits (num / den)).length
  -- Below one, the digits of the reciprocal count the places.
  else 1 - ((digits ((den + num - 1) / num - 1)).length : Int)

/-- The numeral of at most `count` digits that reads back as `x` and is nearest to it, if there
is one: only the two neighbours of the value among the numerals of that many digits can be. -/
def withDigits? (ties : Tie) (x : Binary F) (count : Nat) : Option (Nat × Int) :=
  let units := F.units x.magnitude
  let scale : Int := count - pointPosition units F.unitsPerOne
  let num := units * Nat.pow 10 scale.toNat
  let den := F.unitsPerOne * Nat.pow 10 (-scale).toNat
  -- The value lies between two counts of the last place; each is asked whether it will do.
  let readsBack (coefficient : Nat) : Bool :=
    (ofDecimal ⟨x.negative, coefficient, -scale⟩ : Binary F) = x
  let below := num / den
  let above := below + 1
  let rest := num % den
  let belowIsNearer := 2 * rest < den || 2 * rest = den && ties.takesBelow below
  if readsBack below && (belowIsNearer || !readsBack above) then some (below, -scale)
  else if readsBack above then some (above, -scale)
  else none

/-- The coefficient and power of ten of the shortest numeral that reads back as a finite number,
without its sign.  Were there none of up to seventeen digits, all digits of the value would do. -/
def shortest (ties : Tie) (x : Binary F) : Nat × Int :=
  if x.isZero then (0, 0)
  else
    let short := (List.range 17).findSome? fun count => x.withDigits? ties (count + 1)
    let (coefficient, exponent) :=
      short.getD (F.units x.magnitude * Nat.pow 5 F.unitExponent, -(F.unitExponent : Int))
    trimZeros (digits coefficient).length coefficient exponent

/-- Digits with the decimal point at `point`, zeros filling the gap to it on either side. -/
def positional (digits : List Char) (point : Int) : List Char :=
  if point ≤ 0 then '0' :: '.' :: (List.replicate (-point).toNat '0' ++ digits)
  else if digits.length ≤ point.toNat then
    digits ++ List.replicate (point.toNat - digits.length) '0'
  else digits.take point.toNat ++ '.' :: digits.drop point.toNat

/-- The shortest form without a power of ten; whole numbers have no decimal point, and ties go away
from zero. -/
def toPlain (x : Binary F) : List Char :=
  if x.isNaN then ['N', 'a', 'N']
  else if x.isInfinite then x.signText ++ ['i', 'n', 'f']
  else
    let (coefficient, exponent) := x.shortest .awayFromZero
    let text := digits coefficient
    x.signText ++ if coefficient = 0 then text else positional text (text.length + exponent)

/-- The shortest form of a finite number in a document: positional, with `.0` on whole numbers,
from 0.00001 up to, but not including, ten to the sixteenth; else with a power of ten.  Ties go to
the even digit. -/
def toScientific (x : Binary F) : List Char :=
  let (coefficient, exponent) := x.shortest .toEven
  let text := digits coefficient
  let point : Int := text.length + exponent
  x.signText ++
    if coefficient = 0 then ['0', '.', '0']
    else if 0 ≤ exponent ∧ point ≤ 16 then positional text point ++ ['.', '0']
    else if -5 < point ∧ point ≤ 16 then positional text point
    else
      let power := point - 1
      let exponentText := (if power < 0 then '-' else '+') :: digits power.natAbs
      match text with
      | [] => []
      | [c] => c :: 'e' :: exponentText
      | c :: rest => c :: '.' :: (rest ++ 'e' :: exponentText)

end Binary

end LoraSchedule.Number

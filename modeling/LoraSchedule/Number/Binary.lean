/-!
# Binary floating-point numbers

A number of a binary interchange format is a sign and the word below it.  That word, the
*magnitude*, orders the numbers of one sign: each magnitude stands for a whole multiple of the
least positive number (`Format.units`), strictly growing with the magnitude, up to the infinite
one; the magnitudes above that are the NaNs.

So every operation is done exactly, on integers counted in least positive numbers, and rounded
once: `Format.nearest` picks the magnitude nearest to a given ratio and, of two equally near, the
even one.
-/

namespace LoraSchedule.Number

/-- A binary interchange format, by the widths of its two fields. -/
structure Format where
  fractionBits : Nat
  exponentBits : Nat
deriving DecidableEq

namespace Format

/-- Sixteen bits, eleven of precision. -/
def half : Format := ⟨10, 5⟩

/-- Sixteen bits, eight of precision: the upper half of a single. -/
def brain : Format := ⟨7, 8⟩

/-- Thirty-two bits. -/
def single : Format := ⟨23, 8⟩

/-- Sixty-four bits. -/
def double : Format := ⟨52, 11⟩

variable (F : Format)

/-- The least positive number is two to the power of minus this. -/
def unitExponent : Nat := F.fractionBits + Nat.pow 2 (F.exponentBits - 1) - 2

/-- One, counted in least positive numbers. -/
def unitsPerOne : Nat := Nat.pow 2 F.unitExponent

/-- The magnitude of infinity: all exponent bits set, no fraction bit. -/
def infinity : Nat := (Nat.pow 2 F.exponentBits - 1) * Nat.pow 2 F.fractionBits

/-- The magnitude of the NaN that operations give. -/
def quietNaN : Nat := F.infinity + Nat.pow 2 (F.fractionBits - 1)

/-- The value of a finite magnitude, counted in least positive numbers. -/
def units (magnitude : Nat) : Nat :=
  let exponent := magnitude / Nat.pow 2 F.fractionBits
  let fraction := magnitude % Nat.pow 2 F.fractionBits
  if exponent = 0 then fraction else (Nat.pow 2 F.fractionBits + fraction) * Nat.pow 2 (exponent - 1)

/-- The magnitude whose value is nearest to `num / den` least positive numbers; of two equally
near, the even one.  Values past the largest finite number give magnitudes past `infinity`. -/
def nearest (num den : Nat) : Nat :=
  -- A step is the distance of neighbours around the ratio; below the normal numbers it is one.
  let shift := (num / den).log2 - F.fractionBits
  let step := den * Nat.pow 2 shift
  let below := num / step
  let rest := num % step
  let count :=
    if 2 * rest < step then below
    else if step < 2 * rest then below + 1
    else below + below % 2
  -- A carry into the next power of two comes out right by itself.
  shift * Nat.pow 2 F.fractionBits + count

end Format

/-- The largest number whose square is at most `n`, found bit by bit from the top. -/
def floorSqrt (n : Nat) : Nat :=
  descend (n.log2 / 2 + 1) 0
where
  /-- Settles the lowest `bits` bits above `root`. -/
  descend : Nat → Nat → Nat
    | 0, root => root
    | bit + 1, root =>
      let candidate := root + Nat.pow 2 bit
      descend bit (if candidate * candidate ≤ n then candidate else root)

/-- A floating-point number: the sign and the bits below it. -/
structure Binary (F : Format) where
  negative : Bool
  magnitude : Nat
deriving DecidableEq

/-- Thirty-two bit numbers, the elements of tensors. -/
abbrev Single := Binary .single

/-- Sixty-four bit numbers, used for all other quantities. -/
abbrev Double := Binary .double

namespace Binary

variable {F : Format}

/-! ## Words -/

/-- The number with these bits. -/
def ofBits (bits : Nat) : Binary F :=
  let width := F.fractionBits + F.exponentBits
  ⟨bits / Nat.pow 2 width % 2 = 1, bits % Nat.pow 2 width⟩

/-- The bits of a number. -/
def toBits (x : Binary F) : Nat :=
  (if x.negative then Nat.pow 2 (F.fractionBits + F.exponentBits) else 0) + x.magnitude

/-! ## Kinds of numbers -/

def zero (negative : Bool) : Binary F := ⟨negative, 0⟩

def infinite (negative : Bool) : Binary F := ⟨negative, F.infinity⟩

def nan : Binary F := ⟨false, F.quietNaN⟩

instance : Inhabited (Binary F) := ⟨zero false⟩

def isNaN (x : Binary F) : Bool := F.infinity < x.magnitude

def isInfinite (x : Binary F) : Bool := x.magnitude = F.infinity

def isFinite (x : Binary F) : Bool := x.magnitude < F.infinity

/-- Either of the two zeros. -/
def isZero (x : Binary F) : Bool := x.magnitude = 0

/-! ## Order -/

/-- Places all numbers that are not NaN in their order; both zeros are at 0. -/
def rank (x : Binary F) : Int := if x.negative then -x.magnitude else x.magnitude

/-- `x < y` as numbers; false when either is NaN. -/
def less (x y : Binary F) : Bool := !x.isNaN && !y.isNaN && x.rank < y.rank

/-- `x ≤ y` as numbers; false when either is NaN. -/
def atMost (x y : Binary F) : Bool := !x.isNaN && !y.isNaN && x.rank ≤ y.rank

/-- Places all words in the total order of the format: negative NaNs, negative numbers, the two
zeros, positive numbers, positive NaNs. -/
def totalRank (x : Binary F) : Int := if x.negative then -x.magnitude - 1 else x.magnitude

/-- The total order of the format. -/
def totalAtMost (x y : Binary F) : Bool := x.totalRank ≤ y.totalRank

/-! ## Exact values and rounding -/

/-- The value of a finite number, counted in least positive numbers. -/
def toUnits (x : Binary F) : Int := if x.negative then -F.units x.magnitude else F.units x.magnitude

/-- The number nearest to `num / den` least positive numbers, with the given sign. -/
def ofUnits (negative : Bool) (num den : Nat) : Binary F :=
  ⟨negative, min (F.nearest num den) F.infinity⟩

/-- The number nearest to a natural number. -/
def ofNat (n : Nat) : Binary F := ofUnits false (n * F.unitsPerOne) 1

/-- The number of format `G` nearest to a number of format `F`. -/
def convert (G : Format) (x : Binary F) : Binary G :=
  if x.isNaN then nan
  else if x.isInfinite then infinite x.negative
  else ofUnits x.negative (F.units x.magnitude * G.unitsPerOne) F.unitsPerOne

/-! ## Arithmetic -/

def abs (x : Binary F) : Binary F := ⟨false, x.magnitude⟩

def neg (x : Binary F) : Binary F := ⟨!x.negative, x.magnitude⟩

/-- The sum; opposite infinities have none.  A zero sum is negative only if both terms are. -/
def add (x y : Binary F) : Binary F :=
  if x.isNaN || y.isNaN then nan
  else if x.isInfinite then
    if y.isInfinite && x.negative != y.negative then nan else x
  else if y.isInfinite then y
  else
    let sum := x.toUnits + y.toUnits
    if sum = 0 then zero (x.negative && y.negative)
    else ofUnits (sum < 0) sum.natAbs 1

def sub (x y : Binary F) : Binary F := add x (neg y)

/-- The product; infinity times zero has none. -/
def mul (x y : Binary F) : Binary F :=
  let negative := x.negative != y.negative
  if x.isNaN || y.isNaN then nan
  else if x.isInfinite || y.isInfinite then
    if x.isZero || y.isZero then nan else infinite negative
  else ofUnits negative (F.units x.magnitude * F.units y.magnitude) F.unitsPerOne

/-- The quotient; zero by zero and infinity by infinity have none, and any other number by zero is
infinite. -/
def div (x y : Binary F) : Binary F :=
  let negative := x.negative != y.negative
  if x.isNaN || y.isNaN then nan
  else if x.isInfinite then
    if y.isInfinite then nan else infinite negative
  else if y.isInfinite then zero negative
  else if y.isZero then
    if x.isZero then nan else infinite negative
  else ofUnits negative (F.units x.magnitude * F.unitsPerOne) (F.units y.magnitude)

/-- The square root.  An irrational root lies strictly between two whole numbers of units, with
more bits than the format holds, so half a unit above the lower one rounds as the root does. -/
def sqrt (x : Binary F) : Binary F :=
  if x.isNaN then nan
  else if x.isZero then x
  else if x.negative then nan
  else if x.isInfinite then x
  else
    let square := F.units x.magnitude * F.unitsPerOne
    let root := floorSqrt square
    if root * root = square then ofUnits false root 1 else ofUnits false (2 * root + 1) 2

/-- The nearest whole number; of two equally near, the one further from zero. -/
def round (x : Binary F) : Binary F :=
  if x.isFinite then
    let whole := (2 * F.units x.magnitude + F.unitsPerOne) / (2 * F.unitsPerOne)
    ofUnits x.negative (whole * F.unitsPerOne) 1
  else x

instance : Add (Binary F) := ⟨add⟩
instance : Sub (Binary F) := ⟨sub⟩
instance : Mul (Binary F) := ⟨mul⟩
instance : Div (Binary F) := ⟨div⟩
instance : Neg (Binary F) := ⟨neg⟩

end Binary

end LoraSchedule.Number

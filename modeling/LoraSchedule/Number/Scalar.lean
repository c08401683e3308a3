import LoraSchedule.Number.Decimal

/-!
# Scalars

The statistics of a file are written once, over any type with the operations of `Scalar`.  The
program computes them with sixty-four bit numbers; over the rationals the same definitions give
the exact values, about which their laws are stated.
-/

namespace LoraSchedule.Number

/-- The numbers that statistics are computed in. -/
class Scalar (α : Type) extends Add α, Sub α, Mul α, Div α where
  /-- The number `coefficient / 10 ^ places`. -/
  ofDecimal : (coefficient places : Nat) → α
  abs : α → α
  /-- `a < b` as numbers. -/
  less : α → α → Bool
  /-- `a ≤ b` as numbers. -/
  atMost : α → α → Bool
  /-- The order in which values are sorted; total also where `atMost` is not. -/
  inOrder : α → α → Bool
  /-- The neutral element of addition, from which sums start. -/
  emptySum : α

namespace Scalar

variable {α : Type} [Scalar α]

def ofNat (n : Nat) : α := ofDecimal n 0

def zero : α := ofNat 0

/-- The sum of a list, taken from the left. -/
def sum (values : List α) : α := values.foldl (· + ·) emptySum

end Scalar

/-- Adding negative zero changes no number, adding positive zero changes negative zero: the empty
sum is the former. -/
instance : Scalar Double where
  ofDecimal coefficient places := Binary.ofDecimal ⟨false, coefficient, -(places : Int)⟩
  abs := Binary.abs
  less := Binary.less
  atMost := Binary.atMost
  inOrder := Binary.totalAtMost
  emptySum := Binary.zero true

instance : Scalar Rat where
  ofDecimal coefficient places := (coefficient : Rat) / (Nat.pow 10 places : Nat)
  abs := Rat.abs
  less a b := decide (a < b)
  atMost a b := decide (a ≤ b)
  inOrder a b := decide (a ≤ b)
  emptySum := 0

end LoraSchedule.Number

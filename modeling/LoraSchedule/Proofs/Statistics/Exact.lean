import LoraSchedule.Proofs.Statistics.Energy
import Mathlib.Algebra.Order.Group.Abs
import Mathlib.Data.Option.NAry

/-!
# Exact arithmetic, and where it divides

Over the rationals the operations of `Scalar` are those of a field, with one
flaw: a division by zero is given a value there, too.  Guarded numbers are
rationals that lose their value in such a division (`Guarded.div_zero`) and never
get it back.  So no guarded number that has a value was computed by a division by
zero.
-/

namespace LoraSchedule.Statistics

open LoraSchedule.Number (Scalar)

/-! ## Rationals as scalars -/

@[simp] theorem scalar_ofNat_eq (n : Nat) : (Scalar.ofNat n : Rat) = n := by
  show (n : Rat) / ((Nat.pow 10 0 : Nat) : Rat) = n
  simp

@[simp] theorem scalar_abs_eq (x : Rat) : Scalar.abs x = |x| := by
  show (if 0 ≤ x then x else -x) = |x|
  split
  case isTrue hnonneg => rw [abs_of_nonneg hnonneg]
  case isFalse hneg => rw [abs_of_neg (not_le.mp hneg)]

@[simp] theorem scalar_atMost_iff {x y : Rat} : Scalar.atMost x y = true ↔ x ≤ y :=
  decide_eq_true_iff

/-- A sum of values that are not negative is zero just if all of them are. -/
theorem sum_map_eq_zero_iff {ι : Type} {items : List ι} {value : ι → Rat}
    (h : ∀ item ∈ items, 0 ≤ value item) :
    (items.map value).sum = 0 ↔ ∀ item ∈ items, value item = 0 := by
  induction items with
  | nil => simp
  | cons item rest ih =>
      obtain ⟨hitem, hrest⟩ := List.forall_mem_cons.mp h
      have hsum : 0 ≤ (rest.map value).sum := List.sum_nonneg (List.forall_mem_map.mpr hrest)
      rw [List.map_cons, List.sum_cons, add_eq_zero_iff_of_nonneg hitem hsum, ih hrest,
        List.forall_mem_cons]

/-! ## Guarded numbers -/

/-- A rational number, or nothing after a division by zero. -/
def Guarded : Type := Option Rat

namespace Guarded

def number (x : Rat) : Guarded := some x

/-- What has lost its value compares with nothing. -/
def compare (holds : Rat → Rat → Bool) (a b : Guarded) : Bool :=
  (Option.map₂ holds a b).getD false

instance : Scalar Guarded where
  add := Option.map₂ (· + ·)
  sub := Option.map₂ (· - ·)
  mul := Option.map₂ (· * ·)
  div a b := Option.bind a fun x => Option.bind b fun y => if y = 0 then none else some (x / y)
  ofDecimal coefficient places := number (Scalar.ofDecimal coefficient places)
  abs := Option.map Scalar.abs
  less := compare Scalar.less
  atMost := compare Scalar.atMost
  inOrder := compare Scalar.inOrder
  emptySum := number Scalar.emptySum

theorem number_mul (x y : Rat) : number x * number y = number (x * y) := rfl

theorem number_div (x : Rat) {y : Rat} (hy : y ≠ 0) : number x / number y = number (x / y) :=
  if_neg hy

theorem div_zero (a : Guarded) : a / number 0 = none := by
  cases a with
  | none => rfl
  | some x => rfl

theorem ofNat_eq (n : Nat) : (Scalar.ofNat n : Guarded) = number (Scalar.ofNat n) := rfl

theorem zero_eq : (Scalar.zero : Guarded) = number Scalar.zero := rfl

theorem atMost_number (x y : Rat) :
    Scalar.atMost (number x) (number y) = Scalar.atMost x y := rfl

theorem sum_map_number (values : List Rat) :
    Scalar.sum (values.map number) = number (Scalar.sum values) := by
  unfold Scalar.sum
  rw [List.foldl_map]
  exact List.foldl_hom number fun _ _ => rfl

end Guarded

end LoraSchedule.Statistics

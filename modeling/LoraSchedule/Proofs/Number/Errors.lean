import LoraSchedule.Proofs.Number.Values
import Mathlib.Algebra.Order.Field.Basic
import Mathlib.Algebra.Order.Ring.Rat
import Mathlib.Tactic.FieldSimp
import Mathlib.Tactic.Linarith
import Mathlib.Tactic.Positivity

/-!
# Rounding errors

Read exactly, a finite number is a rational (`Binary.value`).  An operation gives
the number nearest to the exact result, which is off by half a step at most: a
small part of the result, or half the least positive number
(`Format.error`).

From this the error of an interpolation is bounded
(`Binary.abs_value_interpolation_sub_le`): it is far below the four decimals that are
kept of it.
-/

namespace LoraSchedule.Number

/-- Half the least positive number. -/
def Format.halfUnit (F : Format) : ℚ := 1 / (2 * F.unitsPerOne)

/-- The most that a value is changed by when it is rounded to a finite number. -/
def Format.error (F : Format) (value : ℚ) : ℚ :=
  |value| / 2 ^ (F.fractionBits + 1) + F.halfUnit

theorem Format.cast_unitsPerOne_pos (F : Format) : (0 : ℚ) < F.unitsPerOne :=
  Nat.cast_pos.mpr F.unitsPerOne_pos

theorem Format.halfUnit_nonneg (F : Format) : 0 ≤ F.halfUnit :=
  div_nonneg zero_le_one (mul_nonneg zero_le_two F.cast_unitsPerOne_pos.le)

theorem Format.error_nonneg (F : Format) (value : ℚ) : 0 ≤ F.error value :=
  add_nonneg (by positivity) F.halfUnit_nonneg

/-- Half the least positive number is nothing next to one. -/
theorem Format.halfUnit_le : Format.double.halfUnit ≤ 1 / 2 ^ 53 := by
  have hle : ((2 ^ 53 : Nat) : ℚ) ≤ (2 * Format.double.unitsPerOne : Nat) :=
    Nat.cast_le.mpr (by decide +kernel)
  rw [Nat.cast_mul, Nat.cast_pow, Nat.cast_ofNat] at hle
  exact one_div_le_one_div_of_le (by positivity) hle

theorem cast_dist (a b : Nat) : (Nat.dist a b : ℚ) = |(a : ℚ) - b| := by
  rcases le_total a b with hle | hle
  · have hcast : (a : ℚ) ≤ b := by exact_mod_cast hle
    rw [Nat.dist_eq_sub_of_le hle, Nat.cast_sub hle, abs_of_nonpos (by linarith)]
    ring
  · have hcast : (b : ℚ) ≤ a := by exact_mod_cast hle
    rw [Nat.dist_eq_sub_of_le_right hle, Nat.cast_sub hle, abs_of_nonneg (by linarith)]

/-- The value of a magnitude is off by half a step. -/
theorem Format.abs_units_nearest_sub_le (F : Format) (num : Nat) {den : Nat} (hden : 0 < den) :
    |(F.units (F.nearest num den) : ℚ) - num / den| ≤
      num / den / 2 ^ (F.fractionBits + 1) + 1 / 2 := by
  have hdenq : (0 : ℚ) < den := by exact_mod_cast hden
  have hstep : 0 < den * 2 ^ F.scaleOf num den := Nat.mul_pos hden (Nat.two_pow_pos _)
  have hspec := (divideToEven_spec num hstep).1
  rw [F.units_nearest num hden]
  generalize divideToEven num (den * 2 ^ F.scaleOf num den) = count at hspec
  have hhalf : |((count * 2 ^ F.scaleOf num den : Nat) : ℚ) - num / den| ≤
      2 ^ F.scaleOf num den / 2 := by
    have hcast : 2 * |((count * (den * 2 ^ F.scaleOf num den) : Nat) : ℚ) - num| ≤
        den * 2 ^ F.scaleOf num den := by
      rw [← cast_dist]
      exact_mod_cast hspec
    have hscaled : ((count * 2 ^ F.scaleOf num den : Nat) : ℚ) - num / den =
        (((count * (den * 2 ^ F.scaleOf num den) : Nat) : ℚ) - num) / den := by
      push_cast
      field_simp
    rw [hscaled, abs_div, abs_of_pos hdenq, div_le_iff₀ hdenq]
    linarith
  refine hhalf.trans ?_
  have hratio : (0 : ℚ) ≤ num / den := by positivity
  -- above the least scale a step is a small part of the ratio
  rcases (F.scaleOf_low hden : F.scaleOf num den = 0 ∨ _) with hzero | hlow
  · rw [hzero, pow_zero]
    have hpart : (0 : ℚ) ≤ num / den / 2 ^ (F.fractionBits + 1) := by positivity
    linarith
  · have hlowq : (2 : ℚ) ^ F.fractionBits * (den * 2 ^ F.scaleOf num den) ≤ num := by
      exact_mod_cast hlow
    have hpart : (2 : ℚ) ^ F.scaleOf num den / 2 ≤ num / den / 2 ^ (F.fractionBits + 1) := by
      rw [div_div, div_le_div_iff₀ two_pos (by positivity), pow_succ]
      linarith
    linarith

namespace Binary

variable {F : Format} {x y : Binary F}

/-- The rational that a finite number is. -/
def value (x : Binary F) : ℚ := x.toUnits / F.unitsPerOne

/-- A sign as a factor. -/
def sign (negative : Bool) : ℚ := if negative then -1 else 1

theorem abs_sign (negative : Bool) : |sign negative| = 1 := by cases negative <;> simp [sign]

theorem sign_bne (a b : Bool) : sign (a != b) = sign a * sign b := by
  cases a <;> cases b <;> simp [sign]

theorem sign_div_sign (a b : Bool) : sign a / sign b = sign a * sign b := by
  cases a <;> cases b <;> simp [sign]

theorem cast_eq_sign_mul (n : Int) : (n : ℚ) = sign (n < 0) * n.natAbs := by
  rw [Nat.cast_natAbs, Int.cast_abs, sign]
  by_cases hn : n < 0
  · have hcast : (n : ℚ) < 0 := by exact_mod_cast hn
    simp [hn, abs_of_neg hcast]
  · have hcast : (0 : ℚ) ≤ n := by exact_mod_cast not_lt.mp hn
    simp [hn, abs_of_nonneg hcast]

theorem value_eq (x : Binary F) :
    x.value = sign x.negative * (F.units x.magnitude / F.unitsPerOne) := by
  rw [value, toUnits, sign]
  split_ifs <;> push_cast <;> ring

theorem magnitude_ofUnits {negative : Bool} {num den : Nat}
    (hfinite : (ofUnits negative num den : Binary F).isFinite = true) :
    (ofUnits negative num den : Binary F).magnitude = F.nearest num den := by
  have hlt : min (F.nearest num den) F.infinity < F.infinity := of_decide_eq_true hfinite
  exact min_eq_left ((min_lt_iff.mp hlt).resolve_right (lt_irrefl _)).le

/-- A ratio is rounded with its sign. -/
theorem abs_value_ofUnits_sub_le {negative : Bool} {num den : Nat} (hden : 0 < den)
    (hfinite : (ofUnits negative num den : Binary F).isFinite = true) :
    |(ofUnits negative num den : Binary F).value - sign negative * (num / den / F.unitsPerOne)| ≤
      F.error (sign negative * (num / den / F.unitsPerOne)) := by
  have hunits := F.cast_unitsPerOne_pos
  have hsign : (ofUnits negative num den : Binary F).negative = negative := rfl
  have hratio : (0 : ℚ) ≤ num / den / F.unitsPerOne := by positivity
  rw [value_eq, magnitude_ofUnits hfinite, hsign, ← mul_sub, abs_mul, abs_sign, one_mul, ← sub_div,
    abs_div, abs_of_pos hunits, Format.error, Format.halfUnit, abs_mul, abs_sign, one_mul,
    abs_of_nonneg hratio, div_le_iff₀ hunits]
  refine (F.abs_units_nearest_sub_le num hden).trans_eq ?_
  field_simp

theorem abs_value_add_sub_le (h : (x + y).isFinite = true) :
    |(x + y).value - (x.value + y.value)| ≤ F.error (x.value + y.value) := by
  obtain ⟨hx, hy⟩ := isFinite_of_isFinite_add h
  have hsum : x.value + y.value = (x.toUnits + y.toUnits : Int) / F.unitsPerOne := by
    rw [value, value]
    push_cast
    ring
  rw [hsum]
  by_cases hzero : x.toUnits + y.toUnits = 0
  · have hvalue : (zero (x.negative && y.negative) : Binary F).value = 0 := by
      have hunits : F.units 0 = 0 := by simp [Format.units]
      simp [value_eq, zero, hunits]
    rw [add_eq_zero hx hy hzero, hvalue, hzero, Int.cast_zero, zero_div, sub_zero, abs_zero]
    exact F.error_nonneg 0
  · rw [add_eq_ofUnits hx hy hzero] at h ⊢
    have herror := abs_value_ofUnits_sub_le Nat.one_pos h
    rwa [Nat.cast_one, div_one, ← mul_div_assoc, ← cast_eq_sign_mul] at herror

theorem abs_value_mul_sub_le (h : (x * y).isFinite = true) :
    |(x * y).value - x.value * y.value| ≤ F.error (x.value * y.value) := by
  obtain ⟨hx, hy⟩ := isFinite_of_isFinite_mul h
  have hproduct : x.value * y.value = sign (x.negative != y.negative) *
      ((F.units x.magnitude * F.units y.magnitude : Nat) / F.unitsPerOne / F.unitsPerOne) := by
    rw [value_eq, value_eq, sign_bne]
    push_cast
    ring
  rw [mul_eq_ofUnits hx hy] at h ⊢
  rw [hproduct]
  exact abs_value_ofUnits_sub_le F.unitsPerOne_pos h

theorem abs_value_div_sub_le (hx : x.isFinite = true) (hy : y.isFinite = true)
    (hpos : 0 < y.magnitude) (h : (x / y).isFinite = true) :
    |(x / y).value - x.value / y.value| ≤ F.error (x.value / y.value) := by
  have hunits : 0 < F.units y.magnitude := units_pos_iff.mpr hpos
  have hquotient : x.value / y.value = sign (x.negative != y.negative) *
      ((F.units x.magnitude * F.unitsPerOne : Nat) / F.units y.magnitude / F.unitsPerOne) := by
    have hone := F.cast_unitsPerOne_pos
    have hy0 : (F.units y.magnitude : ℚ) ≠ 0 := by exact_mod_cast hunits.ne'
    rw [value_eq, value_eq, sign_bne, mul_div_mul_comm, sign_div_sign]
    push_cast
    field_simp
  rw [div_eq_ofUnits hx hy hpos] at h ⊢
  rw [hquotient]
  exact abs_value_ofUnits_sub_le hunits h

/-- The decimals of a number are off by half of the last place. -/
theorem abs_fixedUnits_sub_le (places : Nat) (x : Binary F) :
    |sign x.negative * (x.fixedUnits places / 10 ^ places) - x.value| ≤ 1 / 2 / 10 ^ places := by
  have hone := F.cast_unitsPerOne_pos
  have hspec : 2 * |((x.fixedUnits places * F.unitsPerOne : Nat) : ℚ) -
      (F.units x.magnitude * 10 ^ places : Nat)| ≤ F.unitsPerOne := by
    rw [← cast_dist]
    exact_mod_cast (x.fixedUnits_spec places).1
  have hscaled : (x.fixedUnits places / 10 ^ places - F.units x.magnitude / F.unitsPerOne : ℚ) =
      (((x.fixedUnits places * F.unitsPerOne : Nat) : ℚ) -
        (F.units x.magnitude * 10 ^ places : Nat)) / (10 ^ places * F.unitsPerOne) := by
    push_cast
    field_simp
  rw [value_eq, ← mul_sub, abs_mul, abs_sign, one_mul, hscaled, abs_div,
    abs_of_pos (by positivity : (0 : ℚ) < 10 ^ places * F.unitsPerOne), div_div,
    div_le_div_iff₀ (by positivity) (by positivity), one_mul, ← mul_assoc, mul_comm |_| 2,
    mul_comm (10 ^ places)]
  exact mul_le_mul_of_nonneg_right hspec (by positivity)

/-! ## Whole numbers -/

/-- A whole number with no more digits than the format holds is representable. -/
theorem units_nearest_whole {n : Nat} (hn : n < 2 ^ (F.fractionBits + 1)) :
    F.units (F.nearest (n * F.unitsPerOne) 1) = n * F.unitsPerOne := by
  have hscale : F.scaleOf (n * F.unitsPerOne) 1 ≤ F.unitExponent := by
    rw [Format.scaleOf, Nat.div_one, Nat.sub_le_iff_le_add]
    by_cases hzero : n * F.unitsPerOne = 0
    · simp [hzero]
    · rw [← Nat.lt_succ_iff, Nat.log2_lt hzero]
      calc n * F.unitsPerOne < 2 ^ (F.fractionBits + 1) * 2 ^ F.unitExponent :=
            Nat.mul_lt_mul_of_pos_right hn (Nat.two_pow_pos _)
        _ = 2 ^ (F.unitExponent + F.fractionBits).succ := by
            rw [← pow_add, Nat.succ_eq_add_one]
            congr 1
            omega
  rw [F.units_nearest _ Nat.one_pos]
  generalize F.scaleOf (n * F.unitsPerOne) 1 = scale at hscale
  -- the steps of the scale are a whole part of one
  obtain ⟨more, hmore⟩ := Nat.exists_eq_add_of_le hscale
  have hsplit : n * F.unitsPerOne = n * 2 ^ more * 2 ^ scale := by
    rw [Format.unitsPerOne, Nat.pow_eq, hmore, pow_add]
    ring
  have hstep : 0 < 2 ^ scale := Nat.two_pow_pos _
  have hcount : divideToEven (n * 2 ^ more * 2 ^ scale) (2 ^ scale) = n * 2 ^ more :=
    divideToEven_eq hstep (by simp [Nat.dist_self]) fun htie => by
      rw [Nat.dist_self] at htie
      omega
  rw [hsplit, Nat.one_mul, hcount]

/-- Whole numbers of no more digits than the format holds are exact. -/
theorem value_ofNat {n : Nat} (hn : n < 2 ^ 53) : (ofNat n : Double).value = n := by
  have hone := Format.double.cast_unitsPerOne_pos
  have hmagnitude : (ofNat n : Double).magnitude =
      Format.double.nearest (n * Format.double.unitsPerOne) 1 :=
    magnitude_ofUnits (isFinite_ofNat (hn.le.trans (by norm_num)))
  rw [value_eq, hmagnitude, units_nearest_whole hn]
  simp only [ofNat, ofUnits, sign, Bool.false_eq_true, if_false, one_mul]
  push_cast
  field_simp

/-! ## Interpolation -/

section Interpolation

variable {first last s : Double}

theorem value_neg (x : Binary F) : (neg x).value = -x.value := by
  rw [value, value, toUnits_neg, Int.cast_neg, neg_div]

theorem abs_value_sub_sub_le (h : (x - y).isFinite = true) :
    |(x - y).value - (x.value - y.value)| ≤ F.error (x.value - y.value) := by
  have hadd := abs_value_add_sub_le (x := x) (y := neg y) h
  rwa [value_neg, ← sub_eq_add_neg] at hadd

/-- A share is between zero and one. -/
theorem IsShare.abs_value_le_one (hs : IsShare s) : |s.value| ≤ 1 := by
  have hone := Format.double.cast_unitsPerOne_pos
  have hunits : Format.double.units s.magnitude ≤ Format.double.unitsPerOne :=
    (Format.double.units_strictMono.monotone hs.magnitude).trans_eq units_one
  rw [value_eq, abs_mul, abs_sign, one_mul,
    abs_of_nonneg (div_nonneg (Nat.cast_nonneg _) hone.le), div_le_one hone]
  exact Nat.cast_le.mpr hunits

/-- The errors of the four operations add up. -/
theorem abs_interpolation_sub_le {f l d m v share t h : ℚ} (hh : 0 ≤ h) (hsmall : h ≤ 1 / 2 ^ 53)
    (hshare : |share| ≤ 1) (ht : |share - t| ≤ 1 / 2 ^ 53 + h)
    (hd : |d - (l - f)| ≤ |l - f| / 2 ^ 53 + h) (hm : |m - d * share| ≤ |d * share| / 2 ^ 53 + h)
    (hv : |v - (f + m)| ≤ |f + m| / 2 ^ 53 + h) :
    |v - (f + (l - f) * t)| ≤ (|f| + |l|) / 2 ^ 50 + 4 * h := by
  have hwidth : |l - f| ≤ |l| + |f| := abs_sub l f
  have hdsize : |d| ≤ |l - f| + |d - (l - f)| := by
    calc |d| = |(l - f) + (d - (l - f))| := by ring_nf
      _ ≤ |l - f| + |d - (l - f)| := abs_add_le _ _
  have hproduct : |d * share| ≤ |d| := by
    rw [abs_mul]
    exact mul_le_of_le_one_right (abs_nonneg d) hshare
  have hmsize : |m| ≤ |d * share| + |m - d * share| := by
    calc |m| = |d * share + (m - d * share)| := by ring_nf
      _ ≤ |d * share| + |m - d * share| := abs_add_le _ _
  have hsum : |f + m| ≤ |f| + |m| := abs_add_le f m
  -- the share is off, and so is the difference that it is taken of
  have hpart : |d * share - (l - f) * t| ≤ |d - (l - f)| + |l - f| * |share - t| := by
    calc |d * share - (l - f) * t| = |(d - (l - f)) * share + (l - f) * (share - t)| := by ring_nf
      _ ≤ |(d - (l - f)) * share| + |(l - f) * (share - t)| := abs_add_le _ _
      _ ≤ |d - (l - f)| + |l - f| * |share - t| := by
          rw [abs_mul, abs_mul]
          gcongr
          exact mul_le_of_le_one_right (abs_nonneg _) hshare
  have hscaled : |l - f| * |share - t| ≤ |l - f| * (1 / 2 ^ 53 + 1 / 2 ^ 53) := by
    gcongr
    linarith
  have htotal : |v - (f + (l - f) * t)| ≤
      |v - (f + m)| + (|m - d * share| + |d * share - (l - f) * t|) := by
    calc |v - (f + (l - f) * t)|
        = |(v - (f + m)) + ((m - d * share) + (d * share - (l - f) * t))| := by ring_nf
      _ ≤ |v - (f + m)| + |(m - d * share) + (d * share - (l - f) * t)| := abs_add_le _ _
      _ ≤ _ := by
          gcongr
          exact abs_add_le _ _
  have hf := abs_nonneg f
  have hl := abs_nonneg l
  linarith

/-- **An interpolation is off by a small part of its ends**, and by two of the least
positive numbers. -/
theorem abs_value_interpolation_sub_le {t : ℚ} (hs : IsShare s)
    (ht : |s.value - t| ≤ 1 / 2 ^ 53 + Format.double.halfUnit)
    (hfinite : (first + (last - first) * s).isFinite = true) :
    |(first + (last - first) * s).value - (first.value + (last.value - first.value) * t)| ≤
      (|first.value| + |last.value|) / 2 ^ 50 + 4 * Format.double.halfUnit := by
  obtain ⟨-, hproduct⟩ := isFinite_of_isFinite_add hfinite
  obtain ⟨hdifference, -⟩ := isFinite_of_isFinite_mul hproduct
  exact abs_interpolation_sub_le Format.double.halfUnit_nonneg Format.halfUnit_le
    hs.abs_value_le_one ht (abs_value_sub_sub_le hdifference) (abs_value_mul_sub_le hproduct)
    (abs_value_add_sub_le hfinite)

end Interpolation

end Binary

end LoraSchedule.Number
